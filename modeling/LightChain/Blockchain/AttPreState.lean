import LightChain.ForkChoice.Targets
import LightChain.Library.Run

/-!
# The state an attestation is checked against

`getAttPreState` returns a state from which the committees of a target checkpoint are
computed. It tries the head state first, if the target is recent and has the head's
dependent root, then the checkpoint cache and the next slot cache, and at last it generates
the state of the target block. A state is the post-state of a block, advanced by empty slots.
The committees of an epoch are those that the last block before the previous epoch fixes.

For a target after the head's epoch the head state is advanced if the target block is
canonical. That block may be an ancestor of the head. Then the state has blocks that the
target's chain does not have, and the committees can be others.
-/
namespace LightChain.Blockchain
open Library DoublyLinkedTree Ancestry

section Service

/-- The post-state of a block, advanced by empty slots to a slot. -/
structure ChainState where
  root : Nat
  slot : Nat
deriving DecidableEq, Repr

/-- `ProcessSlots`, which only goes forward. -/
def processSlots (st : ChainState) (slot : Nat) : Option ChainState :=
  if slot ≤ st.slot then none else some { st with slot }

def processSlotsIfPossible (st : ChainState) (targetSlot : Nat) : Option ChainState :=
  if st.slot < targetSlot then processSlots st targetSlot else some st

/-- The last two blocks that were processed, with their advanced states. -/
structure NextSlotCache where
  last : Option (Nat × ChainState) := none
  prev : Option (Nat × ChainState) := none
deriving DecidableEq, Repr

def NextSlotCache.hit (entry : Option (Nat × ChainState)) (root wantedSlot : Nat) :
    Option ChainState :=
  match entry with
  | some (r, st) => if root = r ∧ st.slot ≤ wantedSlot then some st else none
  | none => none

def NextSlotCache.nextSlotState (nsc : NextSlotCache) (root wantedSlot : Nat) :
    Option ChainState :=
  (hit nsc.last root wantedSlot).or (hit nsc.prev root wantedSlot)

def processSlotsUsingNextSlotCache (nsc : NextSlotCache) (parentState : ChainState)
    (parentRoot slot : Nat) : Option ChainState :=
  let parentState := (nsc.nextSlotState parentRoot slot).getD parentState
  if parentState.slot = slot then some parentState else processSlots parentState slot

/-- The checkpoint state cache. -/
abbrev StateCache := Checkpoint → Option ChainState

/-- What the call reads from a service that has a head. `stateByRoot` is the outcome of a state
generation. -/
structure Service where
  store : Store
  headRoot : Nat
  headSlot : Nat
  headState : ChainState
  nextSlotCache : NextSlotCache
  stateByRoot : Nat → Option ChainState
  ignoreUnviableAttestations : Bool

inductive AttError where
  | epochStart
  | processSlots
  | checkViable (cause : DoublyLinkedTree.Error)
  | notCheckpoint (epoch root : Nat)
  | preState (epoch : Nat)
  | processSlotsUpTo (epoch : Nat)
  /-- The fork choice reads a nil pointer. -/
  | forkChoice (cause : DoublyLinkedTree.Error)
deriving DecidableEq, Repr

def AttError.message : AttError → String
  | .epochStart => "could not compute epoch start"
  | .processSlots => "could not process slots"
  | .checkViable e => "could not check checkpoint condition in forkchoice: " ++ e.message
  | .notCheckpoint epoch root => "epoch " ++ toString epoch ++ " root " ++ hexRoot root ++
    ": not a checkpoint in forkchoice"
  | .preState epoch => "could not get pre state for epoch " ++ toString epoch
  | .processSlotsUpTo epoch => "could not process slots up to epoch " ++ toString epoch
  | .forkChoice e => e.message

variable (cfg : BeaconChainConfig) (svc : Service)

/-- The head has the history of the target before the epoch before the head's. -/
def Service.sharesDependentRoot (c : Checkpoint) : Bool :=
  let epoch := sub64 (toEpoch cfg svc.headSlot) 1
  match svc.store.dependentRootForEpoch cfg svc.headRoot epoch,
      svc.store.dependentRootForEpoch cfg c.root epoch with
  | .ok headDependent, .ok targetDependent => targetDependent == headDependent
  | _, _ => false

variable (cache : StateCache)

/-- Advance the head state to the start of the target epoch, or take the cached state. -/
def Service.advanceHead (c : Checkpoint) (slot : Nat) : Option ChainState × StateCache :=
  match cache c with
  | some st => (some st, cache)
  | none =>
    match processSlotsUsingNextSlotCache svc.nextSlotCache svc.headState c.root slot with
    | none => (none, cache)
    | some st => (some st, Function.update cache c (some st))

def Service.getRecentPreState (c : Checkpoint) : Except AttError (Option ChainState × StateCache) :=
  let headEpoch := toEpoch cfg svc.headSlot
  if add64 c.epoch 1 < headEpoch ∨ c.epoch = 0 then .ok (none, cache)
  else if !svc.sharesDependentRoot cfg c then .ok (none, cache)
  else if c.epoch ≤ headEpoch then .ok (some svc.headState, cache)
  else
    match svc.store.isCanonical c.root with
    | .error e => .error (.forkChoice e)
    | .ok false => .ok (none, cache)
    | .ok true =>
      match epochStart cfg c.epoch with
      | none => .ok (none, cache)
      | some slot => .ok (svc.advanceHead cache c slot)

/-- The path of `getAttPreState` without the head state. -/
def Service.targetState (c : Checkpoint) : Except AttError ChainState × StateCache :=
  match cache c with
  | some st => (.ok st, cache)
  | none =>
    match epochStart cfg c.epoch with
    | none => (.error .epochStart, cache)
    | some slot =>
      match svc.nextSlotCache.nextSlotState c.root slot with
      | some cached =>
        match if cached.slot = slot then some cached else processSlots cached slot with
        | none => (.error .processSlots, cache)
        | some st => (.ok st, Function.update cache c (some st))
      | none =>
        match svc.store.isViableForCheckpoint cfg svc.ignoreUnviableAttestations c with
        | .error e => (.error (.checkViable e), cache)
        | .ok false => (.error (.notCheckpoint c.epoch c.root), cache)
        | .ok true =>
          match svc.stateByRoot c.root with
          | none => (.error (.preState c.epoch), cache)
          | some baseState =>
            match processSlotsIfPossible baseState slot with
            | none => (.error (.processSlotsUpTo c.epoch), cache)
            | some st => (.ok st, Function.update cache c (some st))

def Service.getAttPreState (c : Checkpoint) : Except AttError ChainState × StateCache :=
  match svc.getRecentPreState cfg cache c with
  | .error e => (.error e, cache)
  | .ok (some st, cache) => (.ok st, cache)
  | .ok (none, cache) => svc.targetState cfg cache c

end Service

open Service

section Committees

variable (cfg : BeaconChainConfig) (blocks : Ancestry Nat)

/-- The last block before the epoch before the given one. It fixes the given epoch's committees
on a chain. -/
def seedBlock (root epoch : Nat) : Option Nat :=
  blocks.lastBefore root ((epoch - 1) * cfg.slotsPerEpoch)

/-- The committees that a state gives for an epoch, if `assign` are those that a history fixes. -/
def ChainState.committees {γ : Type} (assign : Nat → Option Nat → γ) (st : ChainState)
    (epoch : Nat) : γ :=
  assign epoch (seedBlock cfg blocks st.root epoch)

/-- The post-state of the target block, advanced to the first slot of the target epoch. -/
def checkpointState (c : Checkpoint) : ChainState :=
  ⟨c.root, max (blocks.slot c.root) (c.epoch * cfg.slotsPerEpoch)⟩

/-- The state gives the committees of the checkpoint's state, whatever a history fixes. -/
def GivesCommittees (st : ChainState) (c : Checkpoint) : Prop :=
  ∀ (γ : Type) (assign : Nat → Option Nat → γ),
    st.committees cfg blocks assign c.epoch =
      (checkpointState cfg blocks c).committees cfg blocks assign c.epoch

/-- No state of the cache gives other committees than its checkpoint. -/
def CacheSound (cache : StateCache) : Prop :=
  ∀ c st, cache c = some st → GivesCommittees cfg blocks st c

/-- The parts of the service hold what they should: the store the tree of blocks, the head state
the head's, and the other caches the states of the blocks they name. -/
structure Service.Sound (svc : Service) : Prop where
  store : svc.store.Consistent cfg blocks
  headSlot : svc.headSlot = blocks.slot svc.headRoot
  headSlot_lt : svc.headSlot < 2 ^ 64
  headState : svc.headState = ⟨svc.headRoot, blocks.slot svc.headRoot⟩
  last : ∀ r st, svc.nextSlotCache.last = some (r, st) → st.root = r
  prev : ∀ r st, svc.nextSlotCache.prev = some (r, st) → st.root = r
  stateByRoot : ∀ r st, svc.stateByRoot r = some st → st = ⟨r, blocks.slot r⟩

/-- The call advances the head state itself: the target is after the head's epoch, its block is
canonical and shares the dependent root, and no cache has a state for it. -/
structure Service.AdvancesHead (svc : Service) (cache : StateCache) (c : Checkpoint) : Prop where
  after : toEpoch cfg svc.headSlot < c.epoch
  recent : toEpoch cfg svc.headSlot ≤ add64 c.epoch 1
  shares : svc.sharesDependentRoot cfg c = true
  canonical : svc.store.isCanonical c.root = .ok true
  start : epochStart cfg c.epoch = some (cfg.slotsPerEpoch * c.epoch)
  uncached : cache c = none
  unadvanced : svc.nextSlotCache.nextSlotState c.root (cfg.slotsPerEpoch * c.epoch) = none

variable {cfg blocks} {svc : Service} {cache cache' : StateCache} {c : Checkpoint}
  {st : ChainState}

theorem givesCommittees_iff : GivesCommittees cfg blocks st c ↔
    seedBlock cfg blocks st.root c.epoch = seedBlock cfg blocks c.root c.epoch := by
  constructor
  · intro h
    exact h (Option Nat) fun _ block => block
  · intro h γ assign
    exact congrArg (assign c.epoch) h

theorem givesCommittees_of_root (h : st.root = c.root) : GivesCommittees cfg blocks st c :=
  givesCommittees_iff.2 (by rw [h])

theorem CacheSound.update (h : CacheSound cfg blocks cache)
    (hst : GivesCommittees cfg blocks st c) :
    CacheSound cfg blocks (Function.update cache c (some st)) := by
  intro c' st' hc'
  by_cases hsame : c' = c
  · subst hsame
    rw [Function.update_self] at hc'
    cases hc'
    exact hst
  · rw [Function.update_of_ne hsame] at hc'
    exact h c' st' hc'

theorem processSlots_root {st' : ChainState} {slot : Nat} (h : processSlots st slot = some st') :
    st'.root = st.root := by
  unfold processSlots at h
  split_ifs at h
  cases h
  rfl

theorem processSlotsUsingNextSlotCache_root {nsc : NextSlotCache} {st' next : ChainState}
    {root slot : Nat} (hnext : nsc.nextSlotState root slot = some next)
    (h : processSlotsUsingNextSlotCache nsc st root slot = some st') : st'.root = next.root := by
  unfold processSlotsUsingNextSlotCache at h
  simp only [hnext, Option.getD_some] at h
  split_ifs at h
  · cases h
    rfl
  · exact processSlots_root h

theorem Service.Sound.nextSlotState_root (h : svc.Sound cfg blocks) {root slot : Nat}
    (hst : svc.nextSlotCache.nextSlotState root slot = some st) : st.root = root := by
  have hhit : ∀ entry : Option (Nat × ChainState), (∀ r st, entry = some (r, st) → st.root = r) →
      NextSlotCache.hit entry root slot = some st → st.root = root := by
    intro entry hentry hhit
    match entry with
    | none => cases hhit
    | some (r, st') =>
      simp only [NextSlotCache.hit] at hhit
      split_ifs at hhit with hr
      cases hhit
      rw [hr.1, hentry r st rfl]
  unfold NextSlotCache.nextSlotState at hst
  rcases Option.or_eq_some_iff.1 hst with hlast | ⟨-, hprev⟩
  · exact hhit _ h.last hlast
  · exact hhit _ h.prev hprev

theorem Service.Sound.targetState (h : svc.Sound cfg blocks)
    (hcache : CacheSound cfg blocks cache)
    (hrun : svc.targetState cfg cache c = (.ok st, cache')) :
    GivesCommittees cfg blocks st c ∧ CacheSound cfg blocks cache' := by
  -- Both ways of making a state end in one of the target block, which is put into the cache.
  have hstored {st' : ChainState} (hroot : st'.root = c.root)
      (hresult : ((.ok st', Function.update cache c (some st')) :
        Except AttError ChainState × StateCache) = (.ok st, cache')) :
      GivesCommittees cfg blocks st c ∧ CacheSound cfg blocks cache' := by
    cases hresult
    exact ⟨givesCommittees_of_root hroot, hcache.update (givesCommittees_of_root hroot)⟩
  unfold Service.targetState at hrun
  cases hcached : cache c with
  | some st' =>
    rw [hcached] at hrun
    cases hrun
    exact ⟨hcache c st hcached, hcache⟩
  | none =>
    rw [hcached] at hrun
    cases hstart : epochStart cfg c.epoch with
    | none => simp [hstart] at hrun
    | some slot =>
      simp only [hstart] at hrun
      cases hnext : svc.nextSlotCache.nextSlotState c.root slot with
      | some cached =>
        have hroot := h.nextSlotState_root hnext
        simp only [hnext] at hrun
        split_ifs at hrun
        · exact hstored hroot hrun
        · cases hslots : processSlots cached slot with
          | none => simp [hslots] at hrun
          | some st' =>
            rw [hslots] at hrun
            exact hstored ((processSlots_root hslots).trans hroot) hrun
      | none =>
        simp only [hnext] at hrun
        match hviable : svc.store.isViableForCheckpoint cfg svc.ignoreUnviableAttestations c with
        | .error e => simp [hviable] at hrun
        | .ok false => simp [hviable] at hrun
        | .ok true =>
          simp only [hviable] at hrun
          cases hbase : svc.stateByRoot c.root with
          | none => simp [hbase] at hrun
          | some baseState =>
            have hroot : baseState.root = c.root := congrArg _ (h.stateByRoot _ _ hbase)
            simp only [hbase, processSlotsIfPossible] at hrun
            split_ifs at hrun
            · cases hslots : processSlots baseState slot with
              | none => simp [hslots] at hrun
              | some st' =>
                rw [hslots] at hrun
                exact hstored ((processSlots_root hslots).trans hroot) hrun
            · exact hstored hroot hrun

/-- A head that shares the dependent root has the target's history before its previous epoch. -/
theorem Service.Sound.seedBlock_eq (h : svc.Sound cfg blocks)
    (hshares : svc.sharesDependentRoot cfg c = true) (hpos : c.epoch ≠ 0)
    (hle : c.epoch ≤ toEpoch cfg svc.headSlot) :
    seedBlock cfg blocks svc.headRoot c.epoch = seedBlock cfg blocks c.root c.epoch := by
  have hlt : toEpoch cfg svc.headSlot < 2 ^ 64 := (Nat.div_le_self _ _).trans_lt h.headSlot_lt
  unfold sharesDependentRoot at hshares
  rw [sub64_of_le hlt (by omega)] at hshares
  simp only at hshares
  split at hshares
  · next d d' hhead htarget =>
    obtain rfl : d' = d := by simpa using hshares
    exact h.store.lastBefore_eq hhead htarget (Nat.mul_le_mul_right _ (Nat.sub_le_sub_right hle 1))
  · cases hshares

/-- The head state reaches the first slot of a later epoch and is put into the cache. -/
theorem Service.AdvancesHead.getAttPreState (hadv : svc.AdvancesHead cfg cache c)
    (h : svc.Sound cfg blocks) :
    let st : ChainState := ⟨svc.headRoot, cfg.slotsPerEpoch * c.epoch⟩
    svc.getAttPreState cfg cache c = (.ok st, Function.update cache c (some st)) := by
  have hbefore : blocks.slot svc.headRoot < cfg.slotsPerEpoch * c.epoch := by
    rw [← h.headSlot, Nat.mul_comm]
    exact slot_lt_of_toEpoch_lt hadv.after
  have hrecent : ¬ (add64 c.epoch 1 < toEpoch cfg svc.headSlot ∨ c.epoch = 0) := by
    have := hadv.after
    have := hadv.recent
    omega
  have hslots : processSlotsUsingNextSlotCache svc.nextSlotCache svc.headState c.root
      (cfg.slotsPerEpoch * c.epoch) = some ⟨svc.headRoot, cfg.slotsPerEpoch * c.epoch⟩ := by
    simp [processSlotsUsingNextSlotCache, hadv.unadvanced, h.headState, processSlots, hbefore.ne,
      Nat.not_le.2 hbefore]
  unfold Service.getAttPreState getRecentPreState
  simp [hrecent, hadv.shares, Nat.not_le.2 hadv.after, hadv.canonical, hadv.start,
    advanceHead, hadv.uncached, hslots]

theorem Service.Sound.getRecentPreState (h : svc.Sound cfg blocks)
    (hcache : CacheSound cfg blocks cache) (hadv : ¬ svc.AdvancesHead cfg cache c)
    {recent : Option ChainState}
    (hrun : svc.getRecentPreState cfg cache c = .ok (recent, cache')) :
    CacheSound cfg blocks cache' ∧ ∀ st, recent = some st → GivesCommittees cfg blocks st c := by
  unfold Service.getRecentPreState at hrun
  simp only at hrun
  have hnone (hresult : (.ok (none, cache) : Except AttError (Option ChainState × StateCache)) =
      .ok (recent, cache')) :
      CacheSound cfg blocks cache' ∧ ∀ st, recent = some st → GivesCommittees cfg blocks st c := by
    cases hresult
    exact ⟨hcache, fun st hst => nomatch hst⟩
  split_ifs at hrun with hold hshares hle
  · exact hnone hrun
  · exact hnone hrun
  · cases hrun
    refine ⟨hcache, fun st hst => ?_⟩
    cases hst
    rw [givesCommittees_iff, h.headState]
    exact h.seedBlock_eq (by simpa using hshares) (fun hzero => hold (.inr hzero)) hle
  · match hcanonical : svc.store.isCanonical c.root with
    | .error e => simp [hcanonical] at hrun
    | .ok false =>
      rw [hcanonical] at hrun
      exact hnone hrun
    | .ok true =>
      rw [hcanonical] at hrun
      cases hstart : epochStart cfg c.epoch with
      | none =>
        rw [hstart] at hrun
        exact hnone hrun
      | some slot =>
        obtain rfl : slot = cfg.slotsPerEpoch * c.epoch := (safeMul64_eq_some.1 hstart).2
        simp only [hstart, advanceHead] at hrun
        cases hcached : cache c with
        | some st =>
          rw [hcached] at hrun
          cases hrun
          exact ⟨hcache, fun st' hst' => hcache c st' (hcached.trans hst')⟩
        | none =>
          rw [hcached] at hrun
          -- The next slot cache has a state of the target block, or the head itself is advanced.
          cases hnext : svc.nextSlotCache.nextSlotState c.root (cfg.slotsPerEpoch * c.epoch) with
          | none =>
            refine absurd ?_ hadv
            exact ⟨Nat.not_le.1 hle, Nat.not_lt.1 fun hlt => hold (.inl hlt), by simpa using hshares,
              hcanonical, hstart, hcached, hnext⟩
          | some next =>
            cases hslots : processSlotsUsingNextSlotCache svc.nextSlotCache svc.headState c.root
                (cfg.slotsPerEpoch * c.epoch) with
            | none =>
              rw [hslots] at hrun
              exact hnone hrun
            | some st =>
              have hgives : GivesCommittees cfg blocks st c :=
                givesCommittees_of_root <|
                  (processSlotsUsingNextSlotCache_root hnext hslots).trans
                    (h.nextSlotState_root hnext)
              rw [hslots] at hrun
              cases hrun
              refine ⟨hcache.update hgives, fun st' hst' => ?_⟩
              cases hst'
              exact hgives

/-- If the head state is not advanced in place of that of a block with another history, the call
gives the checkpoint's committees. -/
theorem Service.Sound.getAttPreState (h : svc.Sound cfg blocks)
    (hcache : CacheSound cfg blocks cache)
    (hseed : svc.AdvancesHead cfg cache c →
      seedBlock cfg blocks svc.headRoot c.epoch = seedBlock cfg blocks c.root c.epoch)
    (hrun : svc.getAttPreState cfg cache c = (.ok st, cache')) :
    GivesCommittees cfg blocks st c ∧ CacheSound cfg blocks cache' := by
  by_cases hadv : svc.AdvancesHead cfg cache c
  · rw [hadv.getAttPreState h] at hrun
    cases hrun
    have hgives : GivesCommittees cfg blocks ⟨svc.headRoot, cfg.slotsPerEpoch * c.epoch⟩ c :=
      givesCommittees_iff.2 (hseed hadv)
    exact ⟨hgives, hcache.update hgives⟩
  · unfold Service.getAttPreState at hrun
    match hrecent : svc.getRecentPreState cfg cache c with
    | .error e => simp [hrecent] at hrun
    | .ok (some st', cache₁) =>
      obtain ⟨hsound, hgives⟩ := h.getRecentPreState hcache hadv hrecent
      rw [hrecent] at hrun
      cases hrun
      exact ⟨hgives _ rfl, hsound⟩
    | .ok (none, cache₁) =>
      rw [hrecent] at hrun
      exact h.targetState (h.getRecentPreState hcache hadv hrecent).1 hrun

end Committees

section Ancestor

/-- Blocks 1 to 4 at the slots 0, 33, 40 and 65, each the parent of the next one. -/
def chainOfFour : Ancestry Nat where
  slot r := if r = 2 then 33 else if r = 3 then 40 else if r = 4 then 65 else 0
  parent r := if r = 2 then some 1 else if r = 3 then some 2 else if r = 4 then some 3 else none
  slot_lt := by
    intro r p h
    grind

/-- The fork choice of the four blocks. The node of a block is at the address of its number. -/
def storeOfFour : Store where
  heap r :=
    { root := r, slot := chainOfFour.slot r, parent := chainOfFour.parent r
      target := if r = 4 then some 3 else some 1
      children := if r < 4 then [r + 1] else []
      bestDescendant := if r < 4 then some 4 else none }
  nodeByRoot r := if 1 ≤ r ∧ r ≤ 4 then some r else none
  treeRootNode := some 1
  headNode := some 4

/-- The head is block 4, and no state is cached. -/
def serviceOfFour : Service where
  store := storeOfFour
  headRoot := 4
  headSlot := 65
  headState := ⟨4, 65⟩
  nextSlotCache := {}
  stateByRoot r := some ⟨r, chainOfFour.slot r⟩
  ignoreUnviableAttestations := false

theorem storeOfFour_node {r n : Nat} (h : storeOfFour.nodeByRoot r = some n) :
    n = r ∧ (r = 1 ∨ r = 2 ∨ r = 3 ∨ r = 4) := by
  simp only [storeOfFour] at h
  grind

theorem ancestor_chainOfFour {r : Nat} (h : r = 1 ∨ r = 2 ∨ r = 3 ∨ r = 4) :
    chainOfFour.Ancestor 1 r := by
  have h₂ : chainOfFour.Ancestor 1 2 := .step rfl .refl
  have h₃ : chainOfFour.Ancestor 1 3 := .step rfl h₂
  rcases h with rfl | rfl | rfl | rfl
  · exact .refl
  · exact h₂
  · exact h₃
  · exact .step rfl h₃

theorem storeOfFour_consistent : storeOfFour.Consistent {} chainOfFour where
  zero := rfl
  node r n h := by
    obtain ⟨rfl, -⟩ := storeOfFour_node h
    exact ⟨rfl, rfl⟩
  parent r n p h hp := by
    obtain ⟨rfl, hn⟩ := storeOfFour_node h
    refine ⟨p, hp, ?_⟩
    simp only [storeOfFour, chainOfFour] at hp ⊢
    grind
  top := by
    refine ⟨1, 1, rfl, fun r n h => ancestor_chainOfFour (storeOfFour_node h).2⟩
  no_parent r n h hp r' n' h' := by
    obtain ⟨rfl, hn⟩ := storeOfFour_node h
    obtain rfl : n = 1 := by
      simp only [storeOfFour, chainOfFour] at hp
      grind
    exact ancestor_chainOfFour (storeOfFour_node h').2
  target r n k h hk := by
    obtain ⟨rfl, hn⟩ := storeOfFour_node h
    rcases hn with rfl | rfl | rfl | rfl <;> cases hk
    · exact ⟨lastBefore_of_lt (by decide), by decide⟩
    · refine ⟨?_, by decide⟩
      rw [lastBefore_of_parent (p := 1) (by decide) rfl]
      exact lastBefore_of_lt (by decide)
    · refine ⟨?_, by decide⟩
      rw [lastBefore_of_parent (p := 2) (by decide) rfl,
        lastBefore_of_parent (p := 1) (by decide) rfl]
      exact lastBefore_of_lt (by decide)
    · refine ⟨?_, by decide⟩
      rw [lastBefore_of_parent (p := 3) (by decide) rfl]
      exact lastBefore_of_lt (by decide)
  no_target r n h hk := by
    simp only [storeOfFour] at hk
    grind

theorem serviceOfFour_sound : serviceOfFour.Sound {} chainOfFour where
  store := storeOfFour_consistent
  headSlot := rfl
  headSlot_lt := by decide
  headState := rfl
  last r st h := nomatch h
  prev r st h := nomatch h
  stateByRoot r st h := (Option.some.inj h).symm

theorem cacheSound_empty {cfg : BeaconChainConfig} {blocks : Ancestry Nat} :
    CacheSound cfg blocks fun _ => none :=
  fun _ _ h => nomatch h

end Ancestor

end LightChain.Blockchain

import LightChain.BlockStore.Store
import LightChain.Library.Ancestry
import LightChain.Library.Fallible

/-!
# Post-states of a tree of blocks

The post-state of a block is what the per-slot and per-block transitions make of the post-state of
its parent, and the genesis state for the genesis block. It is a relation, because a block of the
tree may be rejected. The transitions are parameters, of which only their effect on the slot and
on the latest block header is known.
-/
namespace LightChain.Stategen
open Library BlockStore List Option

variable {ρ τ σ ε : Type}

/-- The state transition. A block is rejected whose parent root is not the root of the latest
block header of the state. -/
structure Transition (ρ τ σ ε : Type) where
  slot : σ → Nat
  latestBlockHeader : σ → ρ
  root : Block ρ τ → ρ
  processSlots : σ → Nat → Except ε σ
  processBlock : σ → Block ρ τ → Except ε σ
  processSlots_ok {s s' : σ} {n : Nat} (h : processSlots s n = .ok s') :
    slot s' = n ∧ latestBlockHeader s' = latestBlockHeader s
  processBlock_ok {s s' : σ} {b : Block ρ τ} (h : processBlock s b = .ok s') :
    slot s' = slot s ∧ b.parentRoot = latestBlockHeader s ∧ latestBlockHeader s' = root b

open Transition

/-- A tree of blocks that grows from a genesis block at slot 0, the only one without a parent. The
zero hash is no root of a block. -/
structure BlockTree (T : Transition ρ τ σ ε) [Zero ρ] where
  blocks : ρ → Option (Block ρ τ)
  genesisRoot : ρ
  genesisState : σ
  blocks_zero : blocks 0 = none
  root_eq {r : ρ} {b : Block ρ τ} (h : blocks r = some b) : T.root b = r
  slot_lt {r : ρ} {b p : Block ρ τ} (h : blocks r = some b) (hp : blocks b.parentRoot = some p) :
    p.slot < b.slot
  genesis : ∃ g, blocks genesisRoot = some g ∧ g.parentRoot = 0 ∧ g.slot = 0 ∧
    T.slot genesisState = 0
  genesis_header : T.latestBlockHeader genesisState = genesisRoot
  eq_genesis {r : ρ} {b : Block ρ τ} (h : blocks r = some b) (hparent : b.parentRoot = 0) :
    r = genesisRoot

inductive Error (ε : Type) where
  | stateSlot (slot target : Nat)
  | processSlot (cause : Error ε)
  | processBlock (cause : ε)
  | transition (cause : ε)
deriving DecidableEq, Repr

namespace Transition

variable (T : Transition ρ τ σ ε)

def replayProcessSlots (st : σ) (slot : Nat) : Except (Error ε) σ :=
  if slot < T.slot st then .error (.stateSlot (T.slot st) slot)
  else if T.slot st = slot then .ok st
  else (T.processSlots st slot).mapError .transition

def executeStateTransitionStateGen (st : σ) (block : Block ρ τ) : Except (Error ε) σ :=
  match T.replayProcessSlots st block.slot with
  | .error e => .error (.processSlot e)
  | .ok st => (T.processBlock st block).mapError .processBlock

/-- The blocks are in ascending order. -/
def replayBlocks (targetSlot : Nat) : σ → List (Block ρ τ) → Except (Error ε) σ
  | st, [] => if T.slot st < targetSlot then T.replayProcessSlots st targetSlot else .ok st
  | st, block :: blocks =>
    if targetSlot ≤ T.slot st then .ok st
    else if block.slot ≤ T.slot st then replayBlocks targetSlot st blocks
    else
      match T.executeStateTransitionStateGen st block with
      | .error e => .error e
      | .ok st => replayBlocks targetSlot st blocks

variable {T} {st st' : σ} {block : Block ρ τ} {target : Nat}

theorem replayProcessSlots_ok (h : T.replayProcessSlots st target = .ok st') :
    T.slot st' = target ∧ T.latestBlockHeader st' = T.latestBlockHeader st := by
  unfold replayProcessSlots at h
  split_ifs at h with hlt heq
  · cases h
    exact ⟨heq, rfl⟩
  · exact T.processSlots_ok (ok_of_mapError h)

/-- A block that is executed has the latest header as its parent, and becomes the latest header. -/
theorem executeStateTransitionStateGen_ok
    (h : T.executeStateTransitionStateGen st block = .ok st') :
    T.slot st' = block.slot ∧ block.parentRoot = T.latestBlockHeader st ∧
      T.latestBlockHeader st' = T.root block := by
  unfold executeStateTransitionStateGen at h
  split at h
  · cases h
  next mid hmid =>
  obtain ⟨hslot, hheader⟩ := replayProcessSlots_ok hmid
  obtain ⟨hslot', hparent, hroot⟩ := T.processBlock_ok (ok_of_mapError h)
  exact ⟨hslot'.trans hslot, hparent.trans hheader, hroot⟩

end Transition

namespace BlockTree

variable [Zero ρ] {T : Transition ρ τ σ ε} (tree : BlockTree T)

/-- The state is what the transitions along the ancestors of the block give. -/
inductive PostState : ρ → σ → Prop where
  | genesis : PostState tree.genesisRoot tree.genesisState
  | block {r : ρ} {b : Block ρ τ} {pre post : σ} (hb : tree.blocks r = some b)
      (hparent : PostState b.parentRoot pre)
      (hrun : T.executeStateTransitionStateGen pre b = .ok post) : PostState r post

def ancestry : Ancestry ρ where
  slot r := ((tree.blocks r).map (·.slot)).getD 0
  parent r := (tree.blocks r).bind fun b =>
    if (tree.blocks b.parentRoot).isSome then some b.parentRoot else none
  slot_lt {r p} h := by
    obtain ⟨b, hb, hparent⟩ := bind_eq_some_iff.1 h
    split_ifs at hparent with hsome
    obtain rfl := some.inj hparent
    obtain ⟨q, hq⟩ := isSome_iff_exists.1 hsome
    simpa [hb, hq] using tree.slot_lt hb hq

variable {tree} {r a : ρ} {b p : Block ρ τ} {st st' : σ}

theorem ancestry_slot (hb : tree.blocks r = some b) : tree.ancestry.slot r = b.slot := by
  simp [ancestry, hb]

theorem ancestry_parent (hb : tree.blocks r = some b) (hp : tree.blocks b.parentRoot = some p) :
    tree.ancestry.parent r = some b.parentRoot := by
  simp [ancestry, hb, hp]

theorem PostState.spec (h : tree.PostState r st) :
    ∃ b, tree.blocks r = some b ∧ T.slot st = b.slot ∧ T.latestBlockHeader st = r := by
  cases h with
  | genesis =>
    obtain ⟨g, hg, -, hzero, hslot⟩ := tree.genesis
    exact ⟨g, hg, hslot.trans hzero.symm, tree.genesis_header⟩
  | block hb hparent hrun =>
    obtain ⟨hslot, -, hheader⟩ := executeStateTransitionStateGen_ok hrun
    exact ⟨_, hb, hslot, hheader.trans (tree.root_eq hb)⟩

theorem not_postState_zero : ¬ tree.PostState 0 st := by
  intro h
  obtain ⟨b, hb, -⟩ := h.spec
  rw [tree.blocks_zero] at hb
  cases hb

theorem PostState.parent (h : tree.PostState r st) (hb : tree.blocks r = some b)
    (hne : b.parentRoot ≠ 0) :
    ∃ pre, tree.PostState b.parentRoot pre ∧ T.executeStateTransitionStateGen pre b = .ok st := by
  cases h with
  | genesis =>
    obtain ⟨g, hg, hzero, -⟩ := tree.genesis
    obtain rfl := some.inj (hg.symm.trans hb)
    exact absurd hzero hne
  | block hb' hparent hrun =>
    obtain rfl := some.inj (hb'.symm.trans hb)
    exact ⟨_, hparent, hrun⟩

theorem PostState.unique (h : tree.PostState r st) (h' : tree.PostState r st') : st = st' := by
  induction h generalizing st' with
  | genesis =>
    cases h' with
    | genesis => rfl
    | block hb hparent hrun =>
      obtain ⟨g, hg, hzero, -⟩ := tree.genesis
      obtain rfl := some.inj (hg.symm.trans hb)
      exact absurd (hzero ▸ hparent) not_postState_zero
  | @block r b pre post hb hparent hrun ih =>
    have hne : b.parentRoot ≠ 0 := fun hzero => not_postState_zero (hzero ▸ hparent)
    obtain ⟨pre, hpre, hrun'⟩ := h'.parent hb hne
    rw [← ih hpre, hrun] at hrun'
    exact Except.ok.inj hrun'

end BlockTree

section Chains

variable [Zero ρ] {T : Transition ρ τ σ ε} {tree : BlockTree T}

/-- Blocks in ascending order, each the parent of the next one. -/
def Linked (tree : BlockTree T) : List (ρ × Block ρ τ) → Prop
  | [] => True
  | [x] => tree.blocks x.1 = some x.2
  | x :: y :: l => tree.blocks x.1 = some x.2 ∧ y.2.parentRoot = x.1 ∧ Linked tree (y :: l)

variable {x : ρ × Block ρ τ} {l : List (ρ × Block ρ τ)}

theorem Linked.head (h : Linked tree (x :: l)) : tree.blocks x.1 = some x.2 := by
  cases l with
  | nil => exact h
  | cons y l => exact h.1

theorem Linked.tail (h : Linked tree (x :: l)) : Linked tree l := by
  cases l with
  | nil => trivial
  | cons y l => exact h.2.2

theorem Linked.slot_lt {x y : ρ × Block ρ τ} (h : Linked tree (x :: l)) (hl : l ≠ [])
    (hlast : (x :: l).getLast? = some y) : x.2.slot < y.2.slot := by
  induction l generalizing x with
  | nil => exact absurd rfl hl
  | cons z l ih =>
    have hz : x.2.slot < z.2.slot := tree.slot_lt h.tail.head (by rw [h.2.1, h.1])
    rw [getLast?_cons_cons] at hlast
    by_cases hnil : l = []
    · subst hnil
      simp only [getLast?_singleton, some.injEq] at hlast
      exact hlast ▸ hz
    · exact hz.trans (ih h.tail hnil hlast)

variable {chain : List (ρ × Block ρ τ)} {b : Block ρ τ}

/-- What a replay of a chain returns is the post-state of its last block. A chain that does not
start at the block of the state is rejected. -/
theorem replayBlocks_ok {a r : ρ} {st st' : σ} (hchain : Linked tree chain)
    (hlast : chain.getLast? = some (r, b)) (hst : tree.PostState a st) (hslot : T.slot st < b.slot)
    (hrun : T.replayBlocks b.slot st (chain.map (·.2)) = .ok st') : tree.PostState r st' := by
  induction chain generalizing a st with
  | nil => simp at hlast
  | cons x chain ih =>
    rw [map_cons, replayBlocks, if_neg (Nat.not_le.2 hslot)] at hrun
    have hlast' : chain ≠ [] → chain.getLast? = some (r, b) := by
      intro hne
      rwa [getLast?_cons_of_ne_nil hne] at hlast
    split_ifs at hrun with hskip
    · -- The last block is above the state, so it is not skipped.
      have hne : chain ≠ [] := by
        rintro rfl
        simp only [getLast?_singleton, some.injEq] at hlast
        rw [hlast] at hskip
        exact absurd hslot (Nat.not_lt.2 hskip)
      exact ih hchain.tail (hlast' hne) hst hslot hrun
    · split at hrun
      · cases hrun
      next next hnext =>
      obtain ⟨hslot', hparent, -⟩ := executeStateTransitionStateGen_ok hnext
      obtain ⟨-, -, -, hheader⟩ := hst.spec
      have hpost : tree.PostState x.1 next :=
        .block hchain.head (hparent.trans hheader ▸ hst) hnext
      by_cases hne : chain = []
      · subst hne
        simp only [getLast?_singleton, some.injEq] at hlast
        subst hlast
        rw [map_nil, replayBlocks, hslot', if_neg (lt_irrefl _)] at hrun
        exact Except.ok.inj hrun ▸ hpost
      · exact ih hchain.tail (hlast' hne) hpost (hslot'.trans_lt (hchain.slot_lt hne hlast)) hrun

theorem execute_next {r : ρ} {st post : σ} (hb : tree.blocks r = some b)
    (hst : tree.PostState b.parentRoot st) (hpost : tree.PostState r post) :
    T.executeStateTransitionStateGen st b = .ok post ∧ T.slot st < b.slot := by
  have hne : b.parentRoot ≠ 0 := fun hzero => BlockTree.not_postState_zero (hzero ▸ hst)
  obtain ⟨pre, hpre, hrun⟩ := hpost.parent hb hne
  obtain ⟨p, hp, hslot, -⟩ := hst.spec
  exact ⟨hst.unique hpre ▸ hrun, hslot.trans_lt (tree.slot_lt hb hp)⟩

theorem Linked.exists_postState {r : ρ} {post : σ} (hchain : Linked tree (x :: chain))
    (hlast : (x :: chain).getLast? = some (r, b)) (hpost : tree.PostState r post) :
    ∃ st, tree.PostState x.1 st := by
  induction chain generalizing x with
  | nil =>
    simp only [getLast?_singleton, some.injEq] at hlast
    subst hlast
    exact ⟨post, hpost⟩
  | cons y chain ih =>
    obtain ⟨st, hst⟩ := ih hchain.tail hlast
    have hne : y.2.parentRoot ≠ 0 := by
      intro hzero
      have hx := hchain.head
      rw [← hchain.2.1, hzero, tree.blocks_zero] at hx
      cases hx
    obtain ⟨pre, hpre, -⟩ := hst.parent hchain.tail.head hne
    exact ⟨pre, hchain.2.1 ▸ hpre⟩

theorem replayBlocks_total {r : ρ} {st post : σ} (hchain : Linked tree (x :: chain))
    (hlast : (x :: chain).getLast? = some (r, b)) (hst : tree.PostState x.2.parentRoot st)
    (hpost : tree.PostState r post) :
    T.replayBlocks b.slot st ((x :: chain).map (·.2)) = .ok post := by
  induction chain generalizing x st with
  | nil =>
    simp only [getLast?_singleton, some.injEq] at hlast
    subst hlast
    obtain ⟨hrun, hlt⟩ := execute_next hchain.head hst hpost
    rw [map_cons, replayBlocks, if_neg (Nat.not_le.2 hlt),
      if_neg (Nat.not_le.2 hlt), hrun]
    simp [replayBlocks, (executeStateTransitionStateGen_ok hrun).1]
  | cons y chain ih =>
    obtain ⟨mid, hmid⟩ := hchain.exists_postState hlast hpost
    obtain ⟨hrun, hlt⟩ := execute_next hchain.head hst hmid
    have hslot := hchain.slot_lt (cons_ne_nil y chain) hlast
    rw [map_cons, replayBlocks, if_neg (Nat.not_le.2 (hlt.trans hslot)),
      if_neg (Nat.not_le.2 hlt), hrun]
    exact ih hchain.tail hlast (hchain.2.1 ▸ hmid)

end Chains

end LightChain.Stategen

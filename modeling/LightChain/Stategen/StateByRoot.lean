import LightChain.BlockStore.Query
import LightChain.Library.MachineInt
import LightChain.Stategen.Tree

/-!
# States by block root

`StateByRoot` returns a state from a cache or the database, or replays the blocks between the
latest ancestor that has one of these and the block. The ancestor is found by walking the parents;
the blocks are collected by a scan of the slot index, which has blocks of all forks. What is
returned is the post-state of the block, whatever the index lists. If the index lists the stored
blocks, then a stored chain is enough for the state to be returned.
-/
namespace LightChain.Stategen
open Library BlockStore List Option BlockTree Store

variable {ρ τ σ ε : Type} [Zero ρ]

/-- The state generator and the parts of the database that it reads. Blocks, state summaries and
states are those of a tree of blocks. -/
structure Generator {T : Transition ρ τ σ ε} (tree : BlockTree T) where
  db : Store ρ τ
  stateSummary : ρ → Option Nat
  stateBucket : ρ → Option σ
  genesisState : Option σ
  hotStateCache : ρ → Option σ
  finalizedInfo : Option (ρ × σ)
  rootStateCache : ρ → Option σ
  slotRootCache : Nat → Option ρ
  availableBlock : Nat → Bool
  blocks_tree {r b} (h : db.blocks r = some b) : tree.blocks r = some b
  cache_sound : db.CacheSound
  genesisBlockRoot_eq {r} (h : db.genesisBlockRoot = some r) : r = tree.genesisRoot
  summary_slot {r n} (h : stateSummary r = some n) : ∃ b, tree.blocks r = some b ∧ b.slot = n
  stateBucket_post {r st} (h : stateBucket r = some st) : tree.PostState r st
  genesisState_eq {st} (h : genesisState = some st) : st = tree.genesisState
  hotState_post {r st} (h : hotStateCache r = some st) : tree.PostState r st
  finalized_post {r st} (h : finalizedInfo = some (r, st)) : tree.PostState r st
  rootState_post {r st} (h : rootStateCache r = some st) : tree.PostState r st
  slotRoot_slot {n r} (h : slotRootCache n = some r) : ∃ b, tree.blocks r = some b ∧ b.slot = n

inductive LoadError (ε : Type) where
  | noGenesisBlock
  | summaryNotFound
  | nilBlock
  | noDataForSlot (slot : Nat)
  | unknownBlock
  | unknownBoundaryState
  | slotRange (startSlot endSlot : Nat)
  | loadBlocks (cause : QueryError)
  | replay (cause : Error ε)
deriving DecidableEq, Repr

def LoadError.message (text : Error ε → String) : LoadError ε → String
  | .noGenesisBlock => "could not get genesis block root\nOriginGenesisRoot: not found in db"
  | .summaryNotFound => "could not get state summary: could not find block in DB"
  | .nilBlock => "could not get ancestor state: signed beacon block can't be nil"
  | .noDataForSlot slot => "could not get ancestor state: slot " ++ toString slot ++
      " not in db due to checkpoint sync: cannot retrieve data for slot"
  | .unknownBlock => "could not get ancestor state: unknown block"
  | .unknownBoundaryState => "unknown boundary state"
  | .slotRange startSlot endSlot => "could not load blocks for hot state using root: start slot " ++
      toString startSlot ++ " > end slot " ++ toString endSlot
  | .loadBlocks e => "could not load blocks for hot state using root: " ++ e.message
  | .replay e => text e

namespace Generator

variable {T : Transition ρ τ σ ε} {tree : BlockTree T} (g : Generator tree)

theorem getBlock_tree {r : ρ} {b : Block ρ τ} (h : g.db.getBlock r = some b) :
    tree.blocks r = some b :=
  g.blocks_tree (getBlock_eq g.cache_sound ▸ h)

variable [DecidableEq ρ]

/-- The finalized state, if the root is the finalized one. -/
def finalizedState (r : ρ) : Option σ :=
  match g.finalizedInfo with
  | some (root, st) => if root = r then some st else none
  | none => none

/-- The state of a block in the caches or the database, in the order in which they are asked. -/
def availableState (r : ρ) : Option σ :=
  (g.hotStateCache r).or ((g.finalizedState r).or ((g.rootStateCache r).or (g.stateBucket r)))

/-- The loop of `latestAncestor`, from the block of a root. -/
def ancestorState (r : ρ) (b : Block ρ τ) (_hb : g.db.getBlock r = some b) :
    Except (LoadError ε) σ :=
  if b.parentRoot = 0 then
    match g.genesisState with
    | some st => .ok st
    | none => .error .unknownBoundaryState
  else if !g.availableBlock (sub64 b.slot 1) then .error (.noDataForSlot (sub64 b.slot 1))
  else
    match g.availableState b.parentRoot with
    | some st => .ok st
    | none =>
      match hp : g.db.getBlock b.parentRoot with
      | none => .error .unknownBlock
      | some p => ancestorState b.parentRoot p hp
termination_by b.slot
decreasing_by exact tree.slot_lt (g.getBlock_tree _hb) (g.getBlock_tree hp)

def latestAncestor (r : ρ) : Except (LoadError ε) σ :=
  match g.finalizedState r with
  | some st => .ok st
  | none =>
    match hb : g.db.getBlock r with
    | none => .error .nilBlock
    | some b => g.ancestorState r b hb

/-- The slot of the state summary, which is recovered from the block if it is not stored. -/
def summarySlot (r : ρ) : Option Nat :=
  match g.stateSummary r with
  | some slot => some slot
  | none => (g.db.getBlock r).map (·.slot)

def loadBlocks (startSlot endSlot : Nat) (endBlockRoot : ρ) :
    Except (LoadError ε) (List (ρ × Block ρ τ)) :=
  if endSlot < startSlot then .error (.slotRange startSlot endSlot)
  else (g.db.blocksAncestryQuery startSlot endSlot endBlockRoot).mapError .loadBlocks

def loadStateByRoot (r : ρ) : Except (LoadError ε) σ :=
  match ((g.hotStateCache r).or (g.rootStateCache r)).or (g.stateBucket r) with
  | some st => .ok st
  | none =>
    match g.summarySlot r with
    | none => .error .summaryNotFound
    | some targetSlot => do
      let startState ← g.latestAncestor r
      if T.slot startState = targetSlot then return startState
      else
        let blks ← g.loadBlocks (T.slot startState + 1) targetSlot r
        (T.replayBlocks targetSlot startState (blks.map (·.2))).mapError .replay

def stateByRoot (r : ρ) : Except (LoadError ε) σ :=
  if r = 0 then
    match g.db.genesisBlockRoot with
    | none => .error .noGenesisBlock
    | some root => g.loadStateByRoot root
  else g.loadStateByRoot r

section Found

variable {g} {r a : ρ} {b : Block ρ τ} {st : σ}

theorem finalizedState_post (h : g.finalizedState r = some st) : tree.PostState r st := by
  unfold finalizedState at h
  split at h
  · next root st' hinfo =>
    split_ifs at h with hroot
    obtain rfl := some.inj h
    exact hroot ▸ g.finalized_post hinfo
  · cases h

theorem availableState_post (h : g.availableState r = some st) : tree.PostState r st := by
  unfold availableState at h
  simp only [or_eq_some_iff] at h
  rcases h with h | ⟨-, h | ⟨-, h | ⟨-, h⟩⟩⟩
  · exact g.hotState_post h
  · exact finalizedState_post h
  · exact g.rootState_post h
  · exact g.stateBucket_post h

/-- The first block is on the chain of the second, and the blocks above it are stored. -/
structure StoredFrom (g : Generator tree) (a r : ρ) : Prop where
  ancestor : tree.ancestry.Ancestor a r
  stored : ∀ y, tree.ancestry.Ancestor a y → tree.ancestry.Ancestor y r → y ≠ a →
    ∃ b, g.db.getBlock y = some b

omit [DecidableEq ρ] in
theorem StoredFrom.refl : g.StoredFrom a a :=
  ⟨.refl, fun _ hay hya hne => absurd (hya.eq_of_slot hay.slot_le) hne⟩

omit [DecidableEq ρ] in
theorem StoredFrom.step (h : g.StoredFrom a b.parentRoot) (hb : g.db.getBlock r = some b)
    (hp : (tree.blocks b.parentRoot).isSome) : g.StoredFrom a r := by
  obtain ⟨p, hp⟩ := isSome_iff_exists.1 hp
  have hparent := ancestry_parent (g.getBlock_tree hb) hp
  refine ⟨.step hparent h.ancestor, fun y hay hyr hne => ?_⟩
  cases hyr with
  | refl => exact ⟨b, hb⟩
  | step hparent' hy =>
    obtain rfl := some.inj (hparent.symm.trans hparent')
    exact h.stored y hay hy hne

theorem ancestorState_ok (hb : g.db.getBlock r = some b)
    (h : g.ancestorState r b hb = .ok st) : ∃ a, tree.PostState a st ∧ g.StoredFrom a r := by
  fun_induction ancestorState g r b hb with
  | case1 r b hb hzero st' hgenesis =>
    cases h
    obtain rfl := tree.eq_genesis (g.getBlock_tree hb) hzero
    exact ⟨tree.genesisRoot, g.genesisState_eq hgenesis ▸ .genesis, .refl⟩
  | case2 => cases h
  | case3 => cases h
  | case4 r b hb hzero _ st' hstate =>
    cases h
    have hpost := availableState_post hstate
    obtain ⟨p, hp, -⟩ := hpost.spec
    exact ⟨b.parentRoot, hpost, StoredFrom.refl.step hb (by simp [hp])⟩
  | case5 => cases h
  | case6 r b hb hzero _ _ p hp ih =>
    obtain ⟨a, hpost, hstored⟩ := ih h
    exact ⟨a, hpost, hstored.step hb (by simp [g.getBlock_tree hp])⟩

theorem latestAncestor_ok (h : g.latestAncestor r = .ok st) :
    ∃ a, tree.PostState a st ∧ g.StoredFrom a r := by
  unfold latestAncestor at h
  split at h
  · next st' hfinal =>
    cases h
    exact ⟨r, finalizedState_post hfinal, .refl⟩
  · split at h
    · cases h
    · exact ancestorState_ok _ h

end Found

section Chain

variable {g} {r a : ρ} {b : Block ρ τ} {st : σ}

/-- Whatever the index lists, the walk takes a chain. -/
theorem ancestryLoop_linked {earliest lowest : Nat} {sr : List (Nat × ρ)} {x : ρ × Block ρ τ}
    {acc chain : List (ρ × Block ρ τ)} (hacc : Linked tree (x :: acc))
    (h : g.db.ancestryLoop earliest sr x.2.parentRoot lowest (x :: acc) = .ok chain) :
    Linked tree chain ∧ chain.getLast? = (x :: acc).getLast? := by
  induction sr generalizing x acc lowest with
  | nil =>
    cases h
    exact ⟨hacc, rfl⟩
  | cons prev sr ih =>
    unfold ancestryLoop at h
    split_ifs at h with hlow hskip hroot
    · cases h
      exact ⟨hacc, rfl⟩
    · exact ih hacc h
    · split at h
      · cases h
      · next p hp =>
        have hlinked : Linked tree ((prev.2, p) :: x :: acc) :=
          ⟨g.getBlock_tree hp, hroot.symm, hacc⟩
        obtain ⟨hchain, hlast⟩ := ih hlinked h
        exact ⟨hchain, hlast.trans (getLast?_cons_cons ..)⟩
    · exact ih hacc h

theorem blocksAncestryQuery_linked {earliest slot : Nat} {chain : List (ρ × Block ρ τ)}
    (h : g.db.blocksAncestryQuery earliest slot r = .ok chain) :
    ∃ b, tree.blocks r = some b ∧ Linked tree chain ∧ chain.getLast? = some (r, b) := by
  unfold blocksAncestryQuery at h
  split_ifs at h with hrange hone
  · split at h
    · cases h
    · next b hb =>
      cases h
      exact ⟨b, g.getBlock_tree hb, g.getBlock_tree hb, rfl⟩
  · split at h
    · cases h
    · split at h
      · cases h
      · next b hb =>
        have hlinked : Linked tree [(r, b)] := g.getBlock_tree hb
        obtain ⟨hchain, hlast⟩ := ancestryLoop_linked hlinked h
        exact ⟨b, g.getBlock_tree hb, hchain, hlast⟩

omit [DecidableEq ρ] in
theorem summarySlot_eq {slot : Nat} (h : g.summarySlot r = some slot) :
    ∃ b, tree.blocks r = some b ∧ b.slot = slot := by
  unfold summarySlot at h
  split at h
  · next n hn =>
    cases h
    exact g.summary_slot hn
  · obtain ⟨b, hb, hslot⟩ := map_eq_some_iff.1 h
    exact ⟨b, g.getBlock_tree hb, hslot⟩

theorem loadStateByRoot_ok (h : g.loadStateByRoot r = .ok st) : tree.PostState r st := by
  unfold loadStateByRoot at h
  split at h
  · next st' hstate =>
    cases h
    simp only [or_eq_some_iff] at hstate
    rcases hstate with (h | ⟨-, h⟩) | ⟨-, h⟩
    · exact g.hotState_post h
    · exact g.rootState_post h
    · exact g.stateBucket_post h
  split at h
  · cases h
  next targetSlot hsummary =>
  obtain ⟨b, hb, rfl⟩ := summarySlot_eq hsummary
  obtain ⟨start, hstart, h⟩ := bind_eq_ok.1 h
  obtain ⟨a, hpost, hstored⟩ := latestAncestor_ok hstart
  obtain ⟨ba, hba, hslot, -⟩ := hpost.spec
  have hle : ba.slot ≤ b.slot := by
    simpa [ancestry_slot hba, ancestry_slot hb] using hstored.ancestor.slot_le
  split_ifs at h with hsame
  · -- A state at the slot of the block is its own.
    cases h
    have heq : a = r := hstored.ancestor.eq_of_slot
      (by rw [ancestry_slot hba, ancestry_slot hb, ← hslot, hsame])
    exact heq ▸ hpost
  · obtain ⟨chain, hchain, h⟩ := bind_eq_ok.1 h
    unfold loadBlocks at hchain
    split_ifs at hchain
    obtain ⟨b', hb', hlinked, hlast⟩ := blocksAncestryQuery_linked (ok_of_mapError hchain)
    obtain rfl := some.inj (hb.symm.trans hb')
    exact replayBlocks_ok hlinked hlast hpost (by omega) (ok_of_mapError h)

end Chain

section Total

variable {g} {r a : ρ} {b : Block ρ τ} {st : σ}

omit [DecidableEq ρ] in
theorem StoredFrom.parent (h : g.StoredFrom a r) (hne : r ≠ a) (hb : tree.blocks r = some b) :
    tree.ancestry.parent r = some b.parentRoot ∧ (∃ p, tree.blocks b.parentRoot = some p) ∧
      g.StoredFrom a b.parentRoot := by
  obtain ⟨hanc, hstored⟩ := h
  cases hanc with
  | refl => exact absurd rfl hne
  | @step _ p hparent hanc =>
    obtain ⟨b', hb', hp⟩ := bind_eq_some_iff.1 hparent
    obtain rfl := some.inj (hb.symm.trans hb')
    split_ifs at hp with hsome
    obtain rfl := some.inj hp
    exact ⟨hparent, isSome_iff_exists.1 hsome, hanc, fun y hay hyp =>
      hstored y hay (.step hparent hyp)⟩

/-- If the index lists the stored blocks, then the walk takes all blocks above the ancestor. -/
theorem ancestryLoop_complete (hindex : KeyIndexes g.db.blockSlotIndices g.db.slotOf)
    {earliest : Nat} (hearliest : tree.ancestry.slot a < earliest) {sr : List (Nat × ρ)}
    (hsorted : sr.Pairwise fun p q => q.1 ≤ p.1)
    (hsr : ∀ p ∈ sr, earliest ≤ p.1 ∧ p.2 ∈ g.db.blockSlotIndices p.1)
    {x : ρ} {bx : Block ρ τ} {acc : List (ρ × Block ρ τ)} (hx : tree.blocks x = some bx)
    (hstored : g.StoredFrom a x) (hne : x ≠ a)
    (hall : ∀ y, tree.ancestry.Ancestor a y → tree.ancestry.Ancestor y x → y ≠ a → y ≠ x →
      (tree.ancestry.slot y, y) ∈ sr) :
    ∃ y rest, g.db.ancestryLoop earliest sr bx.parentRoot bx.slot ((x, bx) :: acc) =
      .ok (y :: rest) ∧ y.2.parentRoot = a := by
  have hlisted : ∀ {k y}, y ∈ g.db.blockSlotIndices k → ∃ by', g.db.getBlock y = some by' ∧
      by'.slot = k := by
    intro k y hy
    rw [getBlock_eq g.cache_sound]
    exact map_eq_some_iff.1 ((hindex.mem_iff k y).1 hy)
  induction sr generalizing x bx acc with
  | nil =>
    refine ⟨(x, bx), acc, rfl, ?_⟩
    obtain ⟨hparent, -, hup⟩ := hstored.parent hne hx
    by_contra hpa
    refine absurd (hall _ hup.ancestor (.step hparent .refl) hpa ?_) not_mem_nil
    exact fun heq => lt_irrefl _ (heq ▸ tree.ancestry.slot_lt hparent)
  | cons prev sr ih =>
    obtain ⟨hprev, hsr⟩ := forall_mem_cons.1 hsr
    obtain ⟨hle, hsorted⟩ := pairwise_cons.1 hsorted
    obtain ⟨hparent, ⟨bp, hbp⟩, hup⟩ := hstored.parent hne hx
    have hplt := tree.ancestry.slot_lt hparent
    have hpx : bx.parentRoot ≠ x := fun heq => lt_irrefl _ (heq ▸ hplt)
    -- A block on the way other than the parent is below it.
    have hbelow : ∀ y, tree.ancestry.Ancestor y x → y ≠ x →
        tree.ancestry.Ancestor y bx.parentRoot := by
      intro y hyx hne
      cases hyx with
      | refl => exact absurd rfl hne
      | step hparent' hy => exact some.inj (hparent.symm.trans hparent') ▸ hy
    unfold ancestryLoop
    rw [if_neg (Nat.not_lt.2 hprev.1)]
    split_ifs with hskip hroot
    · refine ih hsorted hsr hx hstored hne fun y hay hyx hya hyx' => ?_
      refine (mem_cons.1 (hall y hay hyx hya hyx')).resolve_left fun heq => ?_
      have hlt := (hbelow y hyx hyx').slot_le.trans_lt hplt
      rw [ancestry_slot hx] at hlt
      simp only [← heq] at hskip
      omega
    · obtain ⟨p, hp, hslot⟩ := hlisted hprev.2
      obtain rfl := some.inj (hbp.symm.trans (hroot ▸ g.getBlock_tree hp))
      have hpa : bx.parentRoot ≠ a := by
        intro heq
        rw [← heq, ancestry_slot hbp] at hearliest
        omega
      simp only [hp]
      rw [hroot]
      refine ih hsorted hsr hbp hup hpa fun y hay hyp hya hyp' => ?_
      refine (mem_cons.1 (hall y hay (.step hparent hyp) hya ?_)).resolve_left fun heq => ?_
      · exact fun heq => lt_irrefl _ ((heq ▸ hyp.slot_le).trans_lt hplt)
      · exact hyp' ((Prod.ext_iff.1 heq).2.trans hroot)
    · refine ih hsorted hsr hx hstored hne fun y hay hyx hya hyx' => ?_
      refine (mem_cons.1 (hall y hay hyx hya hyx')).resolve_left fun heq => ?_
      -- The parent is listed after a block that is below it.
      have hyp := hbelow y hyx hyx'
      have hyp' : y ≠ bx.parentRoot := fun h => hroot ((Prod.ext_iff.1 heq).2 ▸ h)
      have hpa : bx.parentRoot ≠ a := fun h => hya ((h ▸ hyp).eq_of_slot (hay.slot_le))
      have hmem := (mem_cons.1 (hall _ hup.ancestor (.step hparent .refl) hpa hpx)).resolve_left
        fun h => hroot ((Prod.ext_iff.1 h).2.symm)
      have hge := hle _ hmem
      rw [← (Prod.ext_iff.1 heq).1] at hge
      exact hyp' (hyp.eq_of_slot hge)

theorem blocksAncestryQuery_complete (hindex : KeyIndexes g.db.blockSlotIndices g.db.slotOf)
    {ba : Block ρ τ} (ha : tree.blocks a = some ba) (hb : g.db.getBlock r = some b)
    (hstored : g.StoredFrom a r) (hne : r ≠ a) :
    ∃ x rest, g.db.blocksAncestryQuery (ba.slot + 1) b.slot r = .ok (x :: rest) ∧
      x.2.parentRoot = a := by
  have hbtree := g.getBlock_tree hb
  obtain ⟨hparent, ⟨bp, hbp⟩, hup⟩ := hstored.parent hne hbtree
  have hle := hup.ancestor.slot_le
  have hlt := tree.slot_lt hbtree hbp
  rw [ancestry_slot ha, ancestry_slot hbp] at hle
  unfold blocksAncestryQuery
  rw [if_neg (by omega)]
  split_ifs with hone
  · refine ⟨(r, b), [], by simp [hb], Eq.symm (hup.ancestor.eq_of_slot ?_)⟩
    rw [ancestry_slot ha, ancestry_slot hbp]
    omega
  · obtain ⟨found, hfound, hmem, hsorted⟩ := slotRoots_spec (s := g.db) (ba.slot + 1) b.slot []
    have hrange : g.db.slotRootsInRange (ba.slot + 1) (b.slot - 1) (-1) = some found := by
      unfold slotRootsInRange
      rw [if_neg (by omega), show b.slot - 1 + 1 = b.slot by omega, hfound, nil_append]
    simp only [hrange, hb]
    refine ancestryLoop_complete hindex (by rw [ancestry_slot ha]; omega) hsorted
      (fun p hp => ?_) hbtree hstored hne fun y hay hyr hya hyr' => ?_
    · obtain ⟨hstart, -, hlisted⟩ := (hmem p.1 p.2).1 hp
      exact ⟨hstart, hlisted⟩
    · obtain ⟨by', hy⟩ := hstored.stored y hay hyr hya
      have hytree := g.getBlock_tree hy
      have hlow : ¬ tree.ancestry.slot y ≤ tree.ancestry.slot a :=
        fun h => hya (hay.eq_of_slot h).symm
      have hhigh : ¬ tree.ancestry.slot r ≤ tree.ancestry.slot y :=
        fun h => hyr' (hyr.eq_of_slot h)
      rw [ancestry_slot ha, ancestry_slot hytree] at hlow
      rw [ancestry_slot hbtree, ancestry_slot hytree] at hhigh
      rw [ancestry_slot hytree, hmem, hindex.mem_iff, slotOf,
        ← getBlock_eq g.cache_sound, hy]
      exact ⟨by omega, by omega, rfl⟩

/-- The chain of a block is stored and covered back to an ancestor that has a state. -/
inductive Covered (g : Generator tree) : ρ → Prop where
  | genesis {r : ρ} {b : Block ρ τ} (hb : g.db.getBlock r = some b) (hzero : b.parentRoot = 0)
      (hstate : g.genesisState.isSome) : Covered g r
  | available {r : ρ} {b : Block ρ τ} (hb : g.db.getBlock r = some b) (hne : b.parentRoot ≠ 0)
      (hslot : g.availableBlock (sub64 b.slot 1) = true)
      (hstate : (g.availableState b.parentRoot).isSome) : Covered g r
  | step {r : ρ} {b : Block ρ τ} (hb : g.db.getBlock r = some b) (hne : b.parentRoot ≠ 0)
      (hslot : g.availableBlock (sub64 b.slot 1) = true) (h : Covered g b.parentRoot) : Covered g r

theorem Covered.stored (h : g.Covered r) : ∃ b, g.db.getBlock r = some b := by
  cases h with
  | genesis hb => exact ⟨_, hb⟩
  | available hb => exact ⟨_, hb⟩
  | step hb => exact ⟨_, hb⟩

theorem Covered.ancestorState (h : g.Covered r) (hb : g.db.getBlock r = some b) :
    ∃ st, g.ancestorState r b hb = .ok st := by
  induction h generalizing b with
  | genesis hb' hzero hstate =>
    obtain rfl := some.inj (hb.symm.trans hb')
    obtain ⟨st, hst⟩ := isSome_iff_exists.1 hstate
    refine ⟨st, ?_⟩
    unfold Generator.ancestorState
    rw [if_pos hzero, hst]
  | available hb' hne hslot hstate =>
    obtain rfl := some.inj (hb.symm.trans hb')
    obtain ⟨st, hst⟩ := isSome_iff_exists.1 hstate
    refine ⟨st, ?_⟩
    unfold Generator.ancestorState
    simp [hne, hslot, hst]
  | step hb' hne hslot h ih =>
    obtain rfl := some.inj (hb.symm.trans hb')
    obtain ⟨p, hp⟩ := h.stored
    obtain ⟨st, hst⟩ := ih hp
    unfold Generator.ancestorState
    simp only [hne, hslot, if_false, Bool.not_true, Bool.false_eq_true]
    split
    · exact ⟨_, rfl⟩
    · split
      · next hnone => exact absurd (hnone.symm.trans hp) (by simp)
      · next q hq =>
        obtain rfl := some.inj (hq.symm.trans hp)
        exact ⟨st, hst⟩

/-- A stored block with a state, or with a chain that is covered, and with a post-state at all. -/
theorem loadStateByRoot_total (hindex : KeyIndexes g.db.blockSlotIndices g.db.slotOf)
    (hb : g.db.getBlock r = some b) (hcovered : (g.availableState r).isSome ∨ g.Covered r)
    (hpost : tree.PostState r st) : g.loadStateByRoot r = .ok st := by
  suffices ∃ st', g.loadStateByRoot r = .ok st' by
    obtain ⟨st', hst'⟩ := this
    rw [hst', (loadStateByRoot_ok hst').unique hpost]
  unfold loadStateByRoot
  split
  · exact ⟨_, rfl⟩
  next hnone =>
  simp only [or_eq_none_iff] at hnone
  obtain ⟨start, hstart⟩ : ∃ start, g.latestAncestor r = .ok start := by
    unfold latestAncestor
    split
    · exact ⟨_, rfl⟩
    next hfinal =>
    split
    · next hnb => exact absurd (hnb.symm.trans hb) (by simp)
    next b' hb' =>
    refine Covered.ancestorState (hcovered.resolve_left ?_) hb'
    simp [availableState, hnone, hfinal]
  obtain ⟨a, hpa, hstored⟩ := latestAncestor_ok hstart
  obtain ⟨ba, hba, hslot, -⟩ := hpa.spec
  obtain ⟨slot, hsummary⟩ : ∃ slot, g.summarySlot r = some slot := by
    unfold summarySlot
    split
    · exact ⟨_, rfl⟩
    · exact ⟨b.slot, by rw [hb]; rfl⟩
  obtain ⟨b', hb', rfl⟩ := summarySlot_eq hsummary
  obtain rfl := some.inj ((g.getBlock_tree hb).symm.trans hb')
  simp only [hsummary, hstart, ok_bind]
  split_ifs with hsame
  · exact ⟨_, rfl⟩
  have hne : r ≠ a := by
    rintro rfl
    obtain rfl := some.inj (hba.symm.trans hb')
    exact hsame hslot
  obtain ⟨x, rest, hquery, hx⟩ := blocksAncestryQuery_complete hindex hba hb hstored hne
  obtain ⟨b'', hb'', hlinked, hlast⟩ := blocksAncestryQuery_linked hquery
  obtain rfl := some.inj (hb''.symm.trans hb')
  have hrange : ¬ b''.slot < ba.slot + 1 := by
    have hle := hstored.ancestor.slot_le
    rw [ancestry_slot hba, ancestry_slot hb'] at hle
    omega
  rw [loadBlocks, hslot, if_neg hrange, hquery]
  refine ⟨st, ?_⟩
  have hreplay := replayBlocks_total hlinked hlast (hx ▸ hpa) hpost
  change (T.replayBlocks b''.slot start ((x :: rest).map (·.2))).mapError LoadError.replay = .ok st
  rw [hreplay]
  rfl

/-- The zero hash stands for the genesis block. -/
def blockRootOf (tree : BlockTree T) (r : ρ) : ρ := if r = 0 then tree.genesisRoot else r

theorem stateByRoot_eq (hgenesis : r = 0 → g.db.genesisBlockRoot.isSome) :
    g.stateByRoot r = g.loadStateByRoot (blockRootOf tree r) := by
  unfold stateByRoot blockRootOf
  split_ifs with hzero
  · obtain ⟨root, hroot⟩ := isSome_iff_exists.1 (hgenesis hzero)
    rw [hroot, ← g.genesisBlockRoot_eq hroot]
  · rfl

theorem stateByRoot_ok (h : g.stateByRoot r = .ok st) :
    tree.PostState (blockRootOf tree r) st := by
  have hgenesis : r = 0 → g.db.genesisBlockRoot.isSome := by
    intro hzero
    by_contra hnone
    simp [stateByRoot, hzero, not_isSome_iff_eq_none.1 hnone] at h
  exact loadStateByRoot_ok ((stateByRoot_eq hgenesis).symm.trans h)

end Total

/-- A state that is returned is the post-state of the block. It is returned if the slot index
lists the stored blocks and the block is stored, with a state of its own or a chain that is stored
and covered back to an ancestor with a state. -/
theorem stateByRoot_exact (g : Generator tree) (r : ρ) :
    (∀ st, g.stateByRoot r = .ok st → tree.PostState (blockRootOf tree r) st) ∧
      (KeyIndexes g.db.blockSlotIndices g.db.slotOf → (r = 0 → g.db.genesisBlockRoot.isSome) →
        (∃ b, g.db.getBlock (blockRootOf tree r) = some b) →
        ((g.availableState (blockRootOf tree r)).isSome ∨ g.Covered (blockRootOf tree r)) →
        ∀ st, tree.PostState (blockRootOf tree r) st → g.stateByRoot r = .ok st) := by
  refine ⟨fun st => stateByRoot_ok, fun hindex hgenesis ⟨b, hb⟩ hcovered st hpost => ?_⟩
  rw [stateByRoot_eq hgenesis]
  exact loadStateByRoot_total hindex hb hcovered hpost

end Generator

section TwoBlocks

/-- States with a slot and a latest header, and blocks whose body is their root. -/
def headerTransition : Transition Nat Nat (Nat × Nat) Unit where
  slot := Prod.fst
  latestBlockHeader := Prod.snd
  root := Block.body
  processSlots s n := .ok (n, s.2)
  processBlock s b := if b.parentRoot = s.2 then .ok (s.1, b.body) else .error ()
  processSlots_ok h := by
    cases h
    exact ⟨rfl, rfl⟩
  processBlock_ok h := by
    split_ifs at h with hparent
    cases h
    exact ⟨rfl, hparent, rfl⟩

/-- A genesis block and its child. -/
def genesisAndChild : Store Nat Nat :=
  empty.saveROBlocks (fun _ => false) [(1, ⟨0, 0, 1⟩), (2, ⟨1, 1, 2⟩)] false

theorem genesisAndChild_sound : genesisAndChild.Sound :=
  sound_empty.saveROBlocks (fun _ => false) [(1, ⟨0, 0, 1⟩), (2, ⟨1, 1, 2⟩)] false

theorem genesisAndChild_blocks {r : Nat} {b : Block Nat Nat}
    (h : genesisAndChild.blocks r = some b) : r = 1 ∧ b = ⟨0, 0, 1⟩ ∨ r = 2 ∧ b = ⟨1, 1, 2⟩ := by
  by_cases h2 : r = 2
  · subst h2
    exact .inr ⟨rfl, (some.inj h).symm⟩
  by_cases h1 : r = 1
  · subst h1
    exact .inl ⟨rfl, (some.inj h).symm⟩
  simp [genesisAndChild, saveROBlocks, saveROBlock, empty, putBlock,
    updateValueForIndices, addSlotIndex, addParentIndex, h1, h2] at h

def smallTree : BlockTree headerTransition where
  blocks := genesisAndChild.blocks
  genesisRoot := 1
  genesisState := (0, 1)
  blocks_zero := rfl
  root_eq h := by rcases genesisAndChild_blocks h with ⟨rfl, rfl⟩ | ⟨rfl, rfl⟩ <;> rfl
  slot_lt h hp := by
    rcases genesisAndChild_blocks h with ⟨rfl, rfl⟩ | ⟨rfl, rfl⟩
    · cases hp
    · cases hp
      decide
  genesis := ⟨⟨0, 0, 1⟩, rfl, rfl, rfl, rfl⟩
  genesis_header := rfl
  eq_genesis h hparent := by
    rcases genesisAndChild_blocks h with ⟨rfl, rfl⟩ | ⟨rfl, rfl⟩
    · rfl
    · cases hparent

/-- A generator with nothing but the genesis state. -/
def smallGenerator : Generator smallTree where
  db := { genesisAndChild with genesisBlockRoot := some 1 }
  stateSummary _ := none
  stateBucket _ := none
  genesisState := some (0, 1)
  hotStateCache _ := none
  finalizedInfo := none
  rootStateCache _ := none
  slotRootCache _ := none
  availableBlock _ := true
  blocks_tree h := h
  cache_sound := genesisAndChild_sound.cache
  genesisBlockRoot_eq h := (some.inj h).symm
  summary_slot h := nomatch h
  stateBucket_post h := nomatch h
  genesisState_eq h := (some.inj h).symm
  hotState_post h := nomatch h
  finalized_post h := nomatch h
  rootState_post h := nomatch h
  slotRoot_slot h := nomatch h

theorem stateByRoot_exact_child : smallGenerator.stateByRoot 2 = .ok (1, 2) := by
  refine (smallGenerator.stateByRoot_exact 2).2
    genesisAndChild_sound.slots (by decide) ⟨⟨1, 1, 2⟩, rfl⟩ (.inr ?_)
    (1, 2) (.block rfl .genesis rfl)
  exact .step (b := ⟨1, 1, 2⟩) rfl (by decide) rfl (.genesis (b := ⟨0, 0, 1⟩) rfl rfl rfl)

end TwoBlocks

end LightChain.Stategen

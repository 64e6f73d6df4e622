import LightChain.Sync.PendingBlocks
import LightChain.Library.Run

/-!
# The marked roots are those of the blocks that wait

A queue is exact if a root is marked in `seenPendingBlocks` exactly if a block with that root
is held and not expired. It is sound if this is so up to expiry: the marked roots are those of
all blocks in the cache. A sound queue is exact if nothing in it is expired.

The queue loses soundness in three ways. A block that comes as the fourth one of its slot is
marked and not stored. A block that is stored over an expired item evicts nothing, so that the
roots of that item stay marked. And a block is deleted by comparing it with its signature,
while its mark is deleted by its root.
-/
namespace LightChain.Sync
open Library List Option ExpiringCache Queue

variable (cfg : BeaconChainConfig) (hash : BlockHash)

section Invariant

def Queue.Stored (q : Queue) (slot : Nat) (x : SignedBlock) : Prop :=
  ∃ item, q.slotToPendingBlocks.lookup slot = some item ∧ x ∈ item.object

def Queue.Holds (q : Queue) (x : SignedBlock) : Prop := ∃ slot, x ∈ q.pendingBlocksInCache slot

/-- A root is marked exactly if a block with that root waits. -/
def Queue.Exact (q : Queue) : Prop :=
  ∀ r, q.seenPendingBlocks r = true ↔ ∃ x, q.Holds x ∧ x.root hash = r

/-- Nothing in the cache is expired. -/
def Queue.Fresh (q : Queue) : Prop :=
  ∀ slot item, q.slotToPendingBlocks.lookup slot = some item → item.expired q.now = false

/-- The marked roots are those of the stored blocks, and no two stored blocks have one root. -/
structure Queue.Sound (q : Queue) : Prop where
  marks : ∀ r, q.seenPendingBlocks r = true ↔ ∃ slot x, q.Stored slot x ∧ x.root hash = r
  keyed : ∀ slot x, q.Stored slot x → x.block.slot = slot
  one : ∀ slot slot' x y, q.Stored slot x → q.Stored slot' y → x.root hash = y.root hash → x = y
  nonempty : ∀ slot item, q.slotToPendingBlocks.lookup slot = some item → item.object ≠ []

/-- The operation does not lose a mark or leave one behind: nothing is expired when it comes,
unless it sweeps or clears the cache; a new block finds room in its slot; and a block that is
deleted is not waiting with another signature. -/
def Queue.Keeps (q : Queue) (op : Operation) : Prop :=
  let q := q.wait op.elapsed
  match op.action with
  | .insertBlock b => q.Fresh ∧ (q.seenPendingBlocks (b.root hash) = true ∨
      (q.pendingBlocksInCache b.block.slot).length < maxBlocksPerSlot)
  | .deleteBlock b => q.Fresh ∧ ∀ x, q.Holds x → x.root hash = b.root hash → x = b
  | .validate _ _ => q.Fresh
  | .deleteExpired => True
  | .clear => True

end Invariant

variable {cfg hash} {q q' : Queue} {b x : SignedBlock} {slot : Nat}

theorem Queue.mem_pendingBlocksInCache : x ∈ q.pendingBlocksInCache slot ↔
    ∃ item, q.slotToPendingBlocks.lookup slot = some item ∧ item.expired q.now = false ∧
      x ∈ item.object := by
  unfold Queue.pendingBlocksInCache
  cases hget : q.slotToPendingBlocks.get q.now slot with
  | none =>
    simp only [getD_none, not_mem_nil, false_iff]
    rintro ⟨item, hlookup, hexp, -⟩
    have := get_eq_some.2 ⟨item, hlookup, hexp, rfl⟩
    rw [hget] at this
    cases this
  | some blks =>
    obtain ⟨item, hlookup, hexp, rfl⟩ := get_eq_some.1 hget
    simp [hlookup, hexp]

theorem Queue.stored_of_mem (h : x ∈ q.pendingBlocksInCache slot) : q.Stored slot x := by
  obtain ⟨item, hlookup, -, hmem⟩ := Queue.mem_pendingBlocksInCache.1 h
  exact ⟨item, hlookup, hmem⟩

/-- All stored blocks of a slot wait as soon as one of them does. -/
theorem Queue.mem_of_stored (hb : b ∈ q.pendingBlocksInCache slot) (h : q.Stored slot x) :
    x ∈ q.pendingBlocksInCache slot := by
  obtain ⟨item, hlookup, hexp, -⟩ := Queue.mem_pendingBlocksInCache.1 hb
  obtain ⟨item', hlookup', hmem⟩ := h
  obtain rfl := some.inj (hlookup.symm.trans hlookup')
  exact Queue.mem_pendingBlocksInCache.2 ⟨item, hlookup, hexp, hmem⟩

theorem SignedBlock.slot_eq (h : x.root hash = b.root hash) : x.block.slot = b.block.slot :=
  congrArg BeaconBlock.slot (hash.injective h)

theorem Queue.Sound.eq_of_holds (h : q.Sound hash) (hx : q.Holds x) {y : SignedBlock}
    (hy : q.Stored slot y) (hroot : x.root hash = y.root hash) :
    x = y ∧ x ∈ q.pendingBlocksInCache slot := by
  obtain ⟨slot', hx⟩ := hx
  obtain rfl := h.one _ _ _ _ (Queue.stored_of_mem hx) hy hroot
  obtain rfl := (h.keyed _ _ (Queue.stored_of_mem hx)).symm.trans (h.keyed _ _ hy)
  exact ⟨rfl, hx⟩

theorem Queue.Fresh.holds_iff (h : q.Fresh) : q.Holds x ↔ ∃ slot, q.Stored slot x := by
  constructor
  · rintro ⟨slot, hx⟩
    exact ⟨slot, Queue.stored_of_mem hx⟩
  · rintro ⟨slot, item, hlookup, hmem⟩
    exact ⟨slot, Queue.mem_pendingBlocksInCache.2 ⟨item, hlookup, h slot item hlookup, hmem⟩⟩

theorem Queue.Sound.exact_iff (h : q.Sound hash) : q.Exact hash ↔ q.Fresh := by
  constructor
  · intro hexact slot item hlookup
    obtain ⟨x, hmem⟩ := exists_mem_of_ne_nil _ (h.nonempty slot item hlookup)
    have hstored : q.Stored slot x := ⟨item, hlookup, hmem⟩
    obtain ⟨y, hy, hroot⟩ := (hexact _).1 ((h.marks _).2 ⟨slot, x, hstored, rfl⟩)
    obtain ⟨item', hlookup', hexp, -⟩ :=
      Queue.mem_pendingBlocksInCache.1 (h.eq_of_holds hy hstored hroot).2
    obtain rfl := some.inj (hlookup.symm.trans hlookup')
    exact hexp
  · intro hfresh r
    rw [h.marks]
    constructor
    · rintro ⟨slot, x, hx, hroot⟩
      exact ⟨x, hfresh.holds_iff.2 ⟨slot, hx⟩, hroot⟩
    · rintro ⟨x, hx, hroot⟩
      obtain ⟨slot, hx⟩ := hfresh.holds_iff.1 hx
      exact ⟨slot, x, hx, hroot⟩

section Delete

theorem onEvicted_eq_true {seen : Nat → Bool} {blks : List SignedBlock} {r : Nat} :
    onEvicted hash seen blks r = true ↔ seen r = true ∧ ∀ b ∈ blks, b.root hash ≠ r := by
  induction blks generalizing seen with
  | nil => simp [onEvicted]
  | cons b blks ih =>
    have hcons : onEvicted hash seen (b :: blks) =
        onEvicted hash (Function.update seen (b.root hash) false) blks := rfl
    rw [hcons, ih, Function.update_apply, forall_mem_cons]
    by_cases h : r = b.root hash
    · simp [h]
    · simp [h, Ne.symm h]

/-- What is left after the deletion of a block from a slot where blocks wait. -/
structure Queue.Deleted (hash : BlockHash) (q : Queue) (b : SignedBlock) (q' : Queue) : Prop where
  now : q'.now = q.now
  other : ∀ slot, slot ≠ b.block.slot →
    q'.slotToPendingBlocks.lookup slot = q.slotToPendingBlocks.lookup slot
  left : ∀ item, q'.slotToPendingBlocks.lookup b.block.slot = some item →
    item.expired q'.now = false ∧ item.object ≠ []
  mem : ∀ x, q'.Stored b.block.slot x ↔ q.Stored b.block.slot x ∧ x ≠ b
  unexpired : ∀ item, q.slotToPendingBlocks.lookup b.block.slot = some item →
    item.expired q.now = false
  seen : ∀ r, q'.seenPendingBlocks r = true ↔ q.seenPendingBlocks r = true ∧ r ≠ b.root hash

variable (cfg hash q b) in
theorem Queue.deleteBlockFromPendingQueue_eq :
    ∃ q', q.deleteBlockFromPendingQueue cfg hash b.block.slot (some b) (b.root hash) = .ok q' ∧
      (q.pendingBlocksInCache b.block.slot = [] ∧ q' = q ∨
        q.pendingBlocksInCache b.block.slot ≠ [] ∧ q.Deleted hash b q') := by
  unfold Queue.deleteBlockFromPendingQueue
  cases hget : q.slotToPendingBlocks.get q.now b.block.slot with
  | none =>
    have hnil : q.pendingBlocksInCache b.block.slot = [] := by
      unfold Queue.pendingBlocksInCache
      rw [hget, getD_none]
    exact ⟨q, by simp [hnil], .inl ⟨hnil, rfl⟩⟩
  | some blks =>
    obtain ⟨item, hlookup, hexp, rfl⟩ := get_eq_some.1 hget
    have hblks : q.pendingBlocksInCache b.block.slot = item.object := by
      unfold Queue.pendingBlocksInCache
      rw [hget, getD_some]
    have hstored (x : SignedBlock) : q.Stored b.block.slot x ↔ x ∈ item.object := by
      simp [Queue.Stored, hlookup]
    have hunexpired (item' : CacheItem (List SignedBlock))
        (h : q.slotToPendingBlocks.lookup b.block.slot = some item') :
        item'.expired q.now = false := by
      obtain rfl := some.inj (hlookup.symm.trans h)
      exact hexp
    rw [hblks]
    by_cases hnil : item.object = []
    · exact ⟨q, by simp [hnil], .inl ⟨hnil, rfl⟩⟩
    · have hlen : item.object.length ≠ 0 := fun h => hnil (length_eq_zero_iff.1 h)
      simp only [hlen, if_false]
      by_cases hnew : item.object.filter (· ≠ b) = []
      · -- The last block of the slot is deleted, so all evicted blocks are that block.
        have hall : ∀ x ∈ item.object, x = b := by
          simpa [filter_eq_nil_iff] using hnew
        simp only [hnew, length_nil, if_true]
        refine ⟨_, rfl, .inr ⟨hnil, rfl, ?_, ?_, ?_, hunexpired, ?_⟩⟩
        · intro slot hslot
          exact lookup_delete.trans (if_neg hslot)
        · intro item' hitem'
          rw [lookup_delete, if_pos rfl] at hitem'
          cases hitem'
        · intro x
          rw [hstored]
          simp only [Queue.Stored, lookup_delete, if_true]
          grind
        · intro r
          simp only [delete, hlookup, map_some, getD_some,
            Function.update_apply]
          by_cases hr : r = b.root hash
          · simp [hr]
          · simp only [hr, if_false, onEvicted_eq_true, ne_eq, not_false_eq_true, and_true,
              and_iff_left_iff_imp]
            intro _ x hx
            rw [hall x hx]
            exact Ne.symm hr
      · have hlen' : (item.object.filter (· ≠ b)).length ≠ 0 :=
          fun h => hnew (length_eq_zero_iff.1 h)
        simp only [hlen', if_false, ExpiringCache.replace, hget]
        refine ⟨_, rfl, .inr ⟨hnil, rfl, ?_, ?_, ?_, hunexpired, ?_⟩⟩
        · intro slot hslot
          exact lookup_set.trans (if_neg hslot)
        · intro item' hitem'
          rw [lookup_set, if_pos rfl] at hitem'
          cases hitem'
          exact ⟨by simp [CacheItem.expired], hnew⟩
        · intro x
          rw [hstored]
          simp [Queue.Stored, lookup_set]
        · intro r
          by_cases hr : r = b.root hash <;> simp [hr]

theorem Queue.Deleted.stored (hd : q.Deleted hash b q') (h : q.Sound hash) :
    q'.Stored slot x ↔ q.Stored slot x ∧ x ≠ b := by
  by_cases hslot : slot = b.block.slot
  · rw [hslot]
    exact hd.mem x
  · unfold Queue.Stored
    rw [hd.other slot hslot]
    refine ⟨fun hx => ⟨hx, ?_⟩, And.left⟩
    rintro rfl
    exact hslot (h.keyed slot x hx).symm

theorem Queue.Deleted.fresh_iff (hd : q.Deleted hash b q') : q'.Fresh ↔ q.Fresh := by
  unfold Queue.Fresh
  refine forall_congr' fun slot => ?_
  by_cases hslot : slot = b.block.slot
  · subst hslot
    exact ⟨fun _ => hd.unexpired, fun _ item hitem => (hd.left item hitem).1⟩
  · rw [hd.other slot hslot, hd.now]

/-- A deletion keeps a queue sound if no other stored block has the root. -/
theorem Queue.Deleted.sound (hd : q.Deleted hash b q') (h : q.Sound hash)
    (honly : ∀ slot x, q.Stored slot x → x.root hash = b.root hash → x = b) : q'.Sound hash where
  marks r := by
    rw [hd.seen, h.marks]
    constructor
    · rintro ⟨⟨slot, x, hx, rfl⟩, hr⟩
      refine ⟨slot, x, (hd.stored h).2 ⟨hx, ?_⟩, rfl⟩
      rintro rfl
      exact hr rfl
    · rintro ⟨slot, x, hx, rfl⟩
      obtain ⟨hx, hne⟩ := (hd.stored h).1 hx
      exact ⟨⟨slot, x, hx, rfl⟩, fun hr => hne (honly slot x hx hr)⟩
  keyed slot x hx := h.keyed slot x ((hd.stored h).1 hx).1
  one slot slot' x y hx hy := h.one slot slot' x y ((hd.stored h).1 hx).1 ((hd.stored h).1 hy).1
  nonempty slot item hitem := by
    by_cases hslot : slot = b.block.slot
    · exact (hd.left item (hslot ▸ hitem)).2
    · rw [hd.other slot hslot] at hitem
      exact h.nonempty slot item hitem

end Delete

section Insert

/-- What an insertion adds to a slot with room for the block. -/
structure Queue.Inserted (hash : BlockHash) (q : Queue) (b : SignedBlock) (q' : Queue) :
    Prop where
  now : q'.now = q.now
  other : ∀ slot, slot ≠ b.block.slot →
    q'.slotToPendingBlocks.lookup slot = q.slotToPendingBlocks.lookup slot
  item : ∃ item, q'.slotToPendingBlocks.lookup b.block.slot = some item ∧
    item.expired q'.now = false ∧ item.object = q.pendingBlocksInCache b.block.slot ++ [b]
  seen : ∀ r, q'.seenPendingBlocks r = true ↔ q.seenPendingBlocks r = true ∨ r = b.root hash

variable (cfg) in
theorem Queue.insertBlockToPendingQueue_eq (hseen : q.seenPendingBlocks (b.root hash) = false)
    (hroom : (q.pendingBlocksInCache b.block.slot).length < maxBlocksPerSlot) :
    ∃ q', q.insertBlockToPendingQueue cfg (some b) (b.root hash) = .ok q' ∧
      q.Inserted hash b q' := by
  unfold Queue.insertBlockToPendingQueue Queue.addPendingBlockToCache
  simp only [hseen, Bool.false_eq_true, if_false, Nat.not_le.2 hroom]
  refine ⟨_, rfl, rfl, ?_, ?_, ?_⟩
  · intro slot hslot
    exact lookup_set.trans (if_neg hslot)
  · exact ⟨_, lookup_set.trans (if_pos rfl), by simp [CacheItem.expired], rfl⟩
  · intro r
    by_cases hr : r = b.root hash <;> simp [hr]

section

variable (hi : q.Inserted hash b q')

include hi

theorem Queue.Inserted.holds (hx : q'.Holds x) : q.Holds x ∨ x = b := by
  obtain ⟨slot, hx⟩ := hx
  obtain ⟨item, hlookup, hexp, hmem⟩ := Queue.mem_pendingBlocksInCache.1 hx
  by_cases hslot : slot = b.block.slot
  · obtain ⟨item', hlookup', -, hobject⟩ := hi.item
    obtain rfl := some.inj (hlookup.symm.trans (hslot ▸ hlookup'))
    rw [hobject, mem_append, mem_singleton] at hmem
    exact hmem.imp (fun hmem => ⟨_, hmem⟩) id
  · rw [hi.other slot hslot] at hlookup
    rw [hi.now] at hexp
    exact .inl ⟨slot, Queue.mem_pendingBlocksInCache.2 ⟨item, hlookup, hexp, hmem⟩⟩

theorem Queue.Inserted.stored (hfresh : q.Fresh) :
    q'.Stored slot x ↔ q.Stored slot x ∨ (x = b ∧ slot = b.block.slot) := by
  by_cases hslot : slot = b.block.slot
  · subst hslot
    obtain ⟨item, hlookup, -, hobject⟩ := hi.item
    have hmem : x ∈ q.pendingBlocksInCache b.block.slot ↔ q.Stored b.block.slot x := by
      refine ⟨Queue.stored_of_mem, ?_⟩
      rintro ⟨item, hitem, hx⟩
      exact Queue.mem_pendingBlocksInCache.2 ⟨item, hitem, hfresh _ item hitem, hx⟩
    rw [← hmem]
    simp [Queue.Stored, hlookup, hobject]
  · simp [Queue.Stored, hi.other slot hslot, hslot]

theorem Queue.Inserted.fresh (hfresh : q.Fresh) : q'.Fresh := by
  intro slot item hitem
  by_cases hslot : slot = b.block.slot
  · obtain ⟨item', hlookup, hexp, -⟩ := hi.item
    obtain rfl := some.inj (hitem.symm.trans (hslot ▸ hlookup))
    exact hexp
  · rw [hi.now]
    exact hfresh slot item ((hi.other slot hslot).symm.trans hitem)

theorem Queue.Inserted.sound (h : q.Sound hash) (hfresh : q.Fresh)
    (hseen : q.seenPendingBlocks (b.root hash) = false) : q'.Sound hash where
  marks r := by
    rw [hi.seen, h.marks]
    simp only [hi.stored hfresh]
    grind
  keyed slot x hx := by
    rcases (hi.stored hfresh).1 hx with hx | ⟨rfl, rfl⟩
    · exact h.keyed slot x hx
    · rfl
  one slot slot' x y hx hy hroot := by
    -- No stored block has the root of the new one, for it would be marked.
    have hnew : ∀ slot x, q.Stored slot x → x.root hash ≠ b.root hash := by
      intro slot x hx hroot
      rw [(h.marks _).2 ⟨slot, x, hx, hroot⟩] at hseen
      cases hseen
    rcases (hi.stored hfresh).1 hx with hx | ⟨rfl, rfl⟩
    · rcases (hi.stored hfresh).1 hy with hy | ⟨rfl, rfl⟩
      · exact h.one slot slot' x y hx hy hroot
      · exact absurd hroot (hnew slot x hx)
    · rcases (hi.stored hfresh).1 hy with hy | ⟨rfl, rfl⟩
      · exact absurd hroot.symm (hnew slot' y hy)
      · rfl
  nonempty slot item hitem := by
    by_cases hslot : slot = b.block.slot
    · obtain ⟨item', hlookup, -, hobject⟩ := hi.item
      obtain rfl := some.inj (hitem.symm.trans (hslot ▸ hlookup))
      simp [hobject]
    · exact h.nonempty slot item ((hi.other slot hslot).symm.trans hitem)

end

end Insert

section Sweeps

theorem foldl_onEvicted_eq_true {seen : Nat → Bool} {lists : List (List SignedBlock)} {r : Nat} :
    lists.foldl (onEvicted hash) seen r = true ↔
      seen r = true ∧ ∀ blks ∈ lists, ∀ b ∈ blks, b.root hash ≠ r := by
  induction lists generalizing seen with
  | nil => simp
  | cons blks lists ih =>
    rw [foldl_cons, ih, onEvicted_eq_true, forall_mem_cons, and_assoc]

theorem Queue.stored_deleteExpired : (q.deleteExpiredBlocksFromCache hash).Stored slot x ↔
    x ∈ q.pendingBlocksInCache slot := by
  rw [Queue.mem_pendingBlocksInCache]
  simp only [Queue.Stored, Queue.deleteExpiredBlocksFromCache, lookup_deleteExpired,
    and_assoc]

theorem Queue.fresh_deleteExpired : (q.deleteExpiredBlocksFromCache hash).Fresh := by
  intro slot item hitem
  exact (lookup_deleteExpired.1 hitem).2

/-- The sweep deletes the marks of what is expired, since that has the slots of its blocks to
itself. -/
theorem Queue.Sound.deleteExpired (h : q.Sound hash) :
    (q.deleteExpiredBlocksFromCache hash).Sound hash where
  marks r := by
    simp only [Queue.stored_deleteExpired]
    simp only [Queue.deleteExpiredBlocksFromCache, foldl_onEvicted_eq_true, h.marks,
      mem_deleteExpired]
    constructor
    · rintro ⟨⟨slot, x, ⟨item, hlookup, hx⟩, rfl⟩, hevicted⟩
      refine ⟨slot, x, Queue.mem_pendingBlocksInCache.2 ⟨item, hlookup, ?_, hx⟩, rfl⟩
      by_contra hexp
      exact hevicted item.object ⟨slot, item, hlookup, by simpa using hexp, rfl⟩ x hx rfl
    · rintro ⟨slot, x, hx, rfl⟩
      refine ⟨⟨slot, x, Queue.stored_of_mem hx, rfl⟩, ?_⟩
      rintro _ ⟨slot', item, hlookup, hexp, rfl⟩ y hy hroot
      obtain ⟨-, hx'⟩ := h.eq_of_holds ⟨slot, hx⟩ ⟨item, hlookup, hy⟩ hroot.symm
      obtain ⟨item', hlookup', hexp', -⟩ := Queue.mem_pendingBlocksInCache.1 hx'
      obtain rfl := some.inj (hlookup.symm.trans hlookup')
      rw [hexp] at hexp'
      cases hexp'
  keyed slot x hx := h.keyed slot x (Queue.stored_of_mem (Queue.stored_deleteExpired.1 hx))
  one slot slot' x y hx hy :=
    h.one slot slot' x y (Queue.stored_of_mem (Queue.stored_deleteExpired.1 hx))
      (Queue.stored_of_mem (Queue.stored_deleteExpired.1 hy))
  nonempty slot item hitem :=
    h.nonempty slot item (lookup_deleteExpired.1 hitem).1

theorem Queue.sound_clear : q.clearPendingSlots.Sound hash where
  marks r := by simp [Queue.clearPendingSlots, Queue.Stored]
  keyed slot x hx := by simp [Queue.clearPendingSlots, Queue.Stored] at hx
  one slot slot' x y hx := by simp [Queue.clearPendingSlots, Queue.Stored] at hx
  nonempty slot item hitem := by simp [Queue.clearPendingSlots] at hitem

theorem Queue.fresh_clear : q.clearPendingSlots.Fresh := by
  intro slot item hitem
  simp [Queue.clearPendingSlots] at hitem

/-- What the loops of `validatePendingSlots` keep: only blocks of the queue they started from
are left, and nothing expires in them. -/
structure Sweep.Sound (hash : BlockHash) (q : Queue) (st : Sweep) : Prop where
  sound : st.queue.Sound hash
  stored : ∀ slot x, st.queue.Stored slot x → q.Stored slot x
  fresh : st.queue.Fresh ↔ q.Fresh

theorem Sweep.Sound.drop {st : Sweep} (h : st.Sound hash q) (hq : q.Sound hash)
    (hb : q.Stored slot b) :
    ∃ st', st.drop cfg hash slot b = .ok st' ∧ st'.Sound hash q := by
  obtain rfl := hq.keyed slot b hb
  obtain ⟨q', hrun, hcases⟩ := deleteBlockFromPendingQueue_eq cfg hash st.queue b
  unfold Sweep.drop
  rw [hrun]
  refine ⟨_, rfl, ?_⟩
  rcases hcases with ⟨-, rfl⟩ | ⟨-, hd⟩
  · exact ⟨h.sound, h.stored, h.fresh⟩
  · refine ⟨hd.sound h.sound fun slot x hx hroot => ?_, fun slot x hx => ?_, ?_⟩
    · exact hq.one _ _ x b (h.stored _ _ hx) hb hroot
    · exact h.stored slot x ((hd.stored h.sound).1 hx).1
    · exact hd.fresh_iff.trans h.fresh

variable (cfg slot) in
theorem Sweep.Sound.validateSlot {st : Sweep} (finalizedEpoch : Nat) (h : st.Sound hash q)
    (hq : q.Sound hash) :
    ∃ st', st.validateSlot cfg hash finalizedEpoch slot = .ok st' ∧ st'.Sound hash q := by
  refine foldlM_total (fun st' b hb h' => ?_) h
  have hb := h.stored slot b (stored_of_mem hb)
  unfold Sweep.validateBlock
  simp only
  split_ifs
  · exact h'.drop hq hb
  · exact h'.drop hq hb
  · exact ⟨st', rfl, h'⟩

variable (cfg) in
theorem Queue.Sound.validatePendingSlots (hq : q.Sound hash) (finalizedEpoch : Nat)
    (order : List Nat) :
    ∃ q', q.validatePendingSlots cfg hash finalizedEpoch order = .ok q' ∧ q'.Sound hash ∧
      (q'.Fresh ↔ q.Fresh) := by
  have hinit : Sweep.Sound hash q { queue := q } := ⟨hq, fun _ _ hx => hx, Iff.rfl⟩
  obtain ⟨st, hrun, hst⟩ : ∃ st, order.foldlM (Sweep.validateSlot cfg hash finalizedEpoch)
      { queue := q } = .ok st ∧ st.Sound hash q :=
    foldlM_total (fun st slot _ h => Sweep.Sound.validateSlot cfg slot finalizedEpoch h hq) hinit
  unfold Queue.validatePendingSlots
  rw [hrun]
  exact ⟨st.queue, rfl, hst.sound, hst.fresh⟩

end Sweeps

section Runs

theorem Queue.Sound.wait (h : q.Sound hash) (elapsed : Nat) : (q.wait elapsed).Sound hash :=
  ⟨h.marks, h.keyed, h.one, h.nonempty⟩

/-- A new block does not take away the mark of an expired one. -/
theorem Queue.Inserted.not_exact (hi : q.Inserted hash b q') (h : q.Sound hash)
    (hseen : q.seenPendingBlocks (b.root hash) = false) (hfresh : ¬ q.Fresh) :
    ¬ q'.Exact hash := by
  intro hexact
  simp only [Queue.Fresh, not_forall] at hfresh
  obtain ⟨slot, item, hlookup, hexp⟩ := hfresh
  obtain ⟨x, hmem⟩ := exists_mem_of_ne_nil _ (h.nonempty slot item hlookup)
  have hstored : q.Stored slot x := ⟨item, hlookup, hmem⟩
  have hmark := (h.marks _).2 ⟨slot, x, hstored, rfl⟩
  obtain ⟨y, hy, hroot⟩ := (hexact _).1 ((hi.seen _).2 (.inl hmark))
  rcases hi.holds hy with hy | rfl
  · obtain ⟨item', hlookup', hexp', -⟩ :=
      Queue.mem_pendingBlocksInCache.1 (h.eq_of_holds hy hstored hroot).2
    obtain rfl := some.inj (hlookup.symm.trans hlookup')
    exact hexp hexp'
  · rw [← hroot, hseen] at hmark
    cases hmark

theorem Queue.Sound.insertBlock (h : q.Sound hash) (b : SignedBlock) :
    ((q.act cfg hash (.insertBlock b)).Exact hash ↔
        q.Fresh ∧ (q.seenPendingBlocks (b.root hash) = true ∨
          (q.pendingBlocksInCache b.block.slot).length < maxBlocksPerSlot)) ∧
      ((q.act cfg hash (.insertBlock b)).Exact hash →
        (q.act cfg hash (.insertBlock b)).Sound hash) := by
  unfold Queue.act
  cases hseen : q.seenPendingBlocks (b.root hash) with
  | true =>
    have hrun : q.insertBlockToPendingQueue cfg (some b) (b.root hash) = .ok q := by
      unfold Queue.insertBlockToPendingQueue
      rw [if_pos hseen]
    simp only [hrun]
    exact ⟨by simp [h.exact_iff], fun _ => h⟩
  | false =>
    by_cases hroom : (q.pendingBlocksInCache b.block.slot).length < maxBlocksPerSlot
    · obtain ⟨q', hrun, hi⟩ := Queue.insertBlockToPendingQueue_eq cfg hseen hroom
      simp only [hrun, hroom, or_true, and_true]
      by_cases hfresh : q.Fresh
      · have hsound := hi.sound h hfresh hseen
        exact ⟨⟨fun _ => hfresh, fun _ => hsound.exact_iff.2 (hi.fresh hfresh)⟩, fun _ => hsound⟩
      · have hnot := hi.not_exact h hseen hfresh
        exact ⟨⟨fun hexact => absurd hexact hnot, fun hf => absurd hf hfresh⟩,
          fun hexact => absurd hexact hnot⟩
    · -- The slot is full: the root is marked, and the block is not stored.
      have hrun : q.insertBlockToPendingQueue cfg (some b) (b.root hash) = .ok { q with
          seenPendingBlocks := Function.update q.seenPendingBlocks (b.root hash) true } := by
        unfold Queue.insertBlockToPendingQueue Queue.addPendingBlockToCache
        simp [hseen, Nat.not_lt.1 hroom]
      have hnot : ¬ Queue.Exact hash { q with
          seenPendingBlocks := Function.update q.seenPendingBlocks (b.root hash) true } := by
        intro hexact
        obtain ⟨x, ⟨slot, hx⟩, hroot⟩ := (hexact (b.root hash)).1 (Function.update_self ..)
        have hmark := (h.marks _).2 ⟨slot, x, Queue.stored_of_mem hx, hroot⟩
        rw [hseen] at hmark
        cases hmark
      simp only [hrun, hroom, hnot, Bool.false_eq_true, or_false, and_false, false_imp_iff,
        and_true]

theorem Queue.Sound.deleteBlock (h : q.Sound hash) (b : SignedBlock) :
    ((q.act cfg hash (.deleteBlock b)).Exact hash ↔
        q.Fresh ∧ ∀ x, q.Holds x → x.root hash = b.root hash → x = b) ∧
      ((q.act cfg hash (.deleteBlock b)).Exact hash →
        (q.act cfg hash (.deleteBlock b)).Sound hash) := by
  obtain ⟨q', hrun, hcases⟩ := Queue.deleteBlockFromPendingQueue_eq cfg hash q b
  unfold Queue.act
  simp only [hrun]
  rcases hcases with ⟨hnil, rfl⟩ | ⟨hne, hd⟩
  · -- No block waits in the slot, so none has the root.
    refine ⟨?_, fun _ => h⟩
    rw [h.exact_iff]
    refine ⟨fun hfresh => ⟨hfresh, ?_⟩, And.left⟩
    rintro x ⟨slot, hx⟩ hroot
    obtain rfl := h.keyed slot x (Queue.stored_of_mem hx)
    rw [SignedBlock.slot_eq hroot, hnil] at hx
    cases hx
  · obtain ⟨y, hy⟩ := exists_mem_of_ne_nil _ hne
    by_cases honly : ∀ x, q.Holds x → x.root hash = b.root hash → x = b
    · have hsound : q'.Sound hash := by
        refine hd.sound h fun slot x hx hroot => honly x ⟨b.block.slot, ?_⟩ hroot
        obtain rfl := h.keyed slot x hx
        exact Queue.mem_of_stored hy (SignedBlock.slot_eq hroot ▸ hx)
      refine ⟨?_, fun _ => hsound⟩
      rw [hsound.exact_iff, hd.fresh_iff]
      exact ⟨fun hfresh => ⟨hfresh, honly⟩, And.left⟩
    · -- The block with another signature is still held, and its root is not marked.
      have hnot : ¬ q'.Exact hash := by
        intro hexact
        simp only [not_forall] at honly
        obtain ⟨x, ⟨slot, hx⟩, hroot, hne⟩ := honly
        obtain rfl := h.keyed slot x (Queue.stored_of_mem hx)
        have hx' := (hd.stored h).2 ⟨Queue.stored_of_mem hx, hne⟩
        obtain ⟨item, hlookup, hmem⟩ := hx'
        have hexp := (hd.left item (SignedBlock.slot_eq hroot ▸ hlookup)).1
        have hmark := (hexact (b.root hash)).2
          ⟨x, ⟨_, Queue.mem_pendingBlocksInCache.2 ⟨item, hlookup, hexp, hmem⟩⟩, hroot⟩
        exact ((hd.seen _).1 hmark).2 rfl
      exact ⟨⟨fun hexact => absurd hexact hnot, fun hk => absurd hk.2 honly⟩,
        fun hexact => absurd hexact hnot⟩

variable (cfg) in
/-- One operation on a sound queue ends in an exact queue exactly if it keeps the marks. -/
theorem Queue.Sound.step (h : q.Sound hash) (op : Operation) :
    ((q.step cfg hash op).Exact hash ↔ q.Keeps hash op) ∧
      ((q.step cfg hash op).Exact hash → (q.step cfg hash op).Sound hash) := by
  obtain ⟨elapsed, action⟩ := op
  have hwait := h.wait elapsed
  cases action with
  | insertBlock b => exact hwait.insertBlock b
  | deleteBlock b => exact hwait.deleteBlock b
  | deleteExpired =>
    have hsound := hwait.deleteExpired
    exact ⟨⟨fun _ => trivial, fun _ => hsound.exact_iff.2 Queue.fresh_deleteExpired⟩,
      fun _ => hsound⟩
  | validate finalizedEpoch order =>
    obtain ⟨q', hrun, hsound, hfresh⟩ := hwait.validatePendingSlots cfg finalizedEpoch order
    have hact : q.step cfg hash ⟨elapsed, .validate finalizedEpoch order⟩ = q' := by
      simp only [Queue.step, Queue.act, hrun]
    rw [hact]
    exact ⟨hsound.exact_iff.trans hfresh, fun _ => hsound⟩
  | clear =>
    have hsound : (q.wait elapsed).clearPendingSlots.Sound hash := Queue.sound_clear
    exact ⟨⟨fun _ => trivial, fun _ => hsound.exact_iff.2 Queue.fresh_clear⟩, fun _ => hsound⟩

theorem Queue.sound_new (now : Nat) : (Queue.new cfg now).Sound hash :=
  Queue.sound_clear (q := Queue.new cfg now)

/-- After each operation of a run the marked roots are those of the blocks that wait, so that no
parent is taken for waiting that is not, exactly if all operations keep the marks. -/
theorem pendingBlocks_exact_iff (now : Nat) (ops : List Operation) :
    Along (step cfg hash) (fun q op => (q.step cfg hash op).Exact hash ∧
        ∀ parentRoot, (q.step cfg hash op).isBlockInQueue parentRoot = true →
          ∃ x, (q.step cfg hash op).Holds x ∧ x.root hash = parentRoot) (new cfg now) ops ↔
      Along (step cfg hash) (fun q op => q.Keeps hash op) (new cfg now) ops := by
  refine along_congr (I := Queue.Sound hash) (sound_new now) (fun q op h => ?_)
    fun q op h hkeeps => (h.step cfg op).2 ((h.step cfg op).1.2 hkeeps)
  rw [← (h.step cfg op).1]
  exact and_iff_left_of_imp fun hexact parentRoot => (hexact parentRoot).1

/-- The hash that writes a block out. -/
def pairHash : BlockHash where
  hashTreeRoot b := Nat.pair b.slot (Nat.pair b.parentRoot b.body)
  injective := by
    rintro ⟨slot, parentRoot, body⟩ ⟨slot', parentRoot', body'⟩ h
    simp only [Nat.pair_eq_pair] at h
    simp [h]

/-- Four blocks come for slot 1. The root of the last one is marked, and no block with it waits. -/
theorem fourthBlock_marked_not_held :
    let block (body : Nat) : SignedBlock := ⟨⟨1, 0, body⟩, 0⟩
    let q := ([0, 1, 2, 3].map fun body => (⟨0, .insertBlock (block body)⟩ : Operation)).foldl
      (step {} pairHash) (new {} 0)
    q.isBlockInQueue ((block 3).root pairHash) = true ∧
      ¬ ∃ x, q.Holds x ∧ x.root pairHash = (block 3).root pairHash := by
  refine ⟨by decide, ?_⟩
  rintro ⟨x, ⟨slot, hx⟩, hroot⟩
  obtain ⟨item, hlookup, -, hmem⟩ := mem_pendingBlocksInCache.1 hx
  rw [lookup_eq_some_iff_mem] at hlookup
  have hentries : (⟨slot, item⟩ : (_ : Nat) × CacheItem (List SignedBlock)) ∈
      ([⟨1, [⟨⟨1, 0, 0⟩, 0⟩, ⟨⟨1, 0, 1⟩, 0⟩, ⟨⟨1, 0, 2⟩, 0⟩], 384000000000⟩] :
        List ((_ : Nat) × CacheItem (List SignedBlock))) := hlookup
  cases mem_singleton.1 hentries
  have hblock := pairHash.injective hroot
  simp only [mem_cons, not_mem_nil, or_false] at hmem
  rcases hmem with rfl | rfl | rfl <;> cases hblock

end Runs

end LightChain.Sync

import LightChain.ForkChoice.Tree

/-!
# The order in which nodes are realized

At the start of an epoch `updateUnrealizedCheckpoints` ranges over the map of nodes, in an order
that the runtime picks. A node above the justified checkpoint replaces it by the unrealized one of
the store, and later nodes are compared with that. The replaced checkpoint is kept as the previous
one, and it is all that can depend on the order: `realization_order_iff` says when it does.
-/
namespace LightChain.DoublyLinkedTree
open Library Program List

/-- The checkpoint replaced last, where nodes with these epochs are compared with `old` until one is
above it, and with `new` from then on. -/
def lastReplaced (old new prev : Checkpoint) : List Nat → Checkpoint
  | [] => prev
  | e :: es =>
    if old.epoch < e then (if es.any (new.epoch < ·) then new else old)
    else lastReplaced old new prev es

/-- One epoch is above both checkpoints, and another one is above one of them. -/
def Ambiguous (old new : Checkpoint) (es : List Nat) : Prop :=
  es.countP (max old.epoch new.epoch < ·) = 1 ∧ 2 ≤ es.countP (min old.epoch new.epoch < ·)

section Replacing

variable {old new prev : Checkpoint} {es es' : List Nat}

theorem lastReplaced_self :
    lastReplaced new new prev es = if es.any (new.epoch < ·) then new else prev := by
  induction es with
  | nil => rfl
  | cons e es ih =>
    rw [lastReplaced, ih]
    grind

/-- Two epochs above both checkpoints: the second of them replaces the new one. -/
theorem lastReplaced_of_two (h : 2 ≤ es.countP (max old.epoch new.epoch < ·)) :
    lastReplaced old new prev es = new := by
  induction es with
  | nil => simp at h
  | cons e es ih =>
    rw [countP_cons] at h
    rw [lastReplaced]
    by_cases he : old.epoch < e
    · have hrest : 0 < es.countP (max old.epoch new.epoch < ·) := by
        split_ifs at h <;> omega
      obtain ⟨e', he', habove⟩ := countP_pos_iff.1 hrest
      have hany : es.any (new.epoch < ·) = true :=
        any_eq_true.2 ⟨e', he', by grind⟩
      rw [if_pos he, if_pos hany]
    · rw [if_neg he]
      refine ih ?_
      rwa [if_neg (by grind), Nat.add_zero] at h

/-- No epoch above both, or no two epochs above one of them: nothing replaces the new one. -/
theorem lastReplaced_of_few (h : es.countP (max old.epoch new.epoch < ·) = 0 ∨
      es.countP (min old.epoch new.epoch < ·) ≤ 1) :
    lastReplaced old new prev es = if es.any (old.epoch < ·) then old else prev := by
  induction es with
  | nil => rfl
  | cons e es ih =>
    rw [countP_cons, countP_cons] at h
    rw [lastReplaced, any_cons]
    by_cases he : old.epoch < e
    · have hnone : es.any (new.epoch < ·) = false := by
        refine any_eq_false.2 fun e' he' => ?_
        have hmax := countP_eq_zero (p := (max old.epoch new.epoch < ·)) (l := es)
        have hmin := countP_eq_zero (p := (min old.epoch new.epoch < ·)) (l := es)
        grind
      simp [he, hnone]
    · rw [if_neg he, ih (by grind)]
      simp [he]

theorem lastReplaced_perm (h : ¬ Ambiguous old new es) (hperm : es'.Perm es) :
    lastReplaced old new prev es' = lastReplaced old new prev es := by
  have hmax := hperm.countP_eq (max old.epoch new.epoch < ·)
  have hmin := hperm.countP_eq (min old.epoch new.epoch < ·)
  by_cases htwo : 2 ≤ es.countP (max old.epoch new.epoch < ·)
  · rw [lastReplaced_of_two htwo, lastReplaced_of_two (hmax ▸ htwo)]
  · have hfew : es.countP (max old.epoch new.epoch < ·) = 0 ∨
        es.countP (min old.epoch new.epoch < ·) ≤ 1 := by
      unfold Ambiguous at h
      omega
    rw [lastReplaced_of_few hfew, lastReplaced_of_few (by rwa [hmax, hmin]), hperm.any_eq]

theorem lastReplaced_concat (prev : Checkpoint) (es : List Nat) {e : Nat} (hold : old.epoch < e) (hnew : new.epoch < e) :
    lastReplaced old new prev (es ++ [e]) = if es.any (old.epoch < ·) then new else old := by
  induction es with
  | nil => simp [lastReplaced, hold]
  | cons a es ih =>
    rw [cons_append, lastReplaced, ih]
    grind

/-- If the epochs are ambiguous, the one above both comes first in one order and last in another,
with different results. -/
theorem exists_perm_of_ambiguous (prev : Checkpoint) (h : Ambiguous old new es) :
    ∃ es', es'.Perm es ∧ lastReplaced old new prev es' ≠ lastReplaced old new prev es := by
  obtain ⟨hone, htwo⟩ := h
  obtain ⟨e, he, habove⟩ := countP_pos_iff.1 (hone ▸ Nat.one_pos)
  have hperm : (e :: es.erase e).Perm es := (perm_cons_erase he).symm
  rw [← hperm.countP_eq, countP_cons] at hone htwo
  have hmax : ∀ a ∈ es.erase e, a ≤ max old.epoch new.epoch := by
    have hzero := countP_eq_zero (p := (max old.epoch new.epoch < ·)) (l := es.erase e)
    grind
  obtain ⟨a, ha, hmin⟩ : ∃ a ∈ es.erase e, min old.epoch new.epoch < a := by
    have hpos : 0 < (es.erase e).countP (min old.epoch new.epoch < ·) := by
      split_ifs at htwo <;> omega
    obtain ⟨a, ha, hlt⟩ := countP_pos_iff.1 hpos
    exact ⟨a, ha, by simpa using hlt⟩
  have hfirst : lastReplaced old new prev (e :: es.erase e) =
      if (es.erase e).any (new.epoch < ·) then new else old := by
    rw [lastReplaced, if_pos (by grind)]
  have hlast : lastReplaced old new prev (es.erase e ++ [e]) =
      if (es.erase e).any (old.epoch < ·) then new else old :=
    lastReplaced_concat prev _ (by grind) (by grind)
  have hdiffer : lastReplaced old new prev (e :: es.erase e) ≠
      lastReplaced old new prev (es.erase e ++ [e]) := by
    rw [hfirst, hlast]
    intro heq
    have hepoch := congrArg Checkpoint.epoch heq
    grind
  by_cases hsame : lastReplaced old new prev (e :: es.erase e) = lastReplaced old new prev es
  · exact ⟨_, (perm_append_singleton _ _).trans hperm, fun h => hdiffer (hsame.trans h.symm)⟩
  · exact ⟨_, hperm, hsame⟩

end Replacing

section Loop

variable (cfg : BeaconChainConfig)

/-- The unrealized epochs of a node become its epochs. -/
def Node.realize (n : Node) : Node :=
  { n with
    justifiedEpoch := n.unrealizedJustifiedEpoch
    finalizedEpoch := n.unrealizedFinalizedEpoch }

/-- The unrealized justified epochs of the nodes, in the order in which they are visited. -/
def Store.unrealizedEpochs (s : Store) (order : List Nat) : List Nat :=
  order.map fun i => (s.heap i).unrealizedJustifiedEpoch

/-- What the loop does to a store, where the handler answers with `balances`. -/
structure Realizes (balances : List Nat) (order : List Nat) (w w' : World) : Prop where
  heap : ∀ i, w'.heap i = if i ∈ order then (w.heap i).realize else w.heap i
  justified : w'.justifiedCheckpoint =
    if (w.unrealizedEpochs order).any (w.justifiedCheckpoint.epoch < ·)
    then w.unrealizedJustifiedCheckpoint else w.justifiedCheckpoint
  prevJustified : w'.prevJustifiedCheckpoint = lastReplaced w.justifiedCheckpoint
    w.unrealizedJustifiedCheckpoint w.prevJustifiedCheckpoint (w.unrealizedEpochs order)
  finalized : w'.finalizedCheckpoint =
    if order.any fun i => w.finalizedCheckpoint.epoch < (w.heap i).unrealizedFinalizedEpoch
    then w.unrealizedFinalizedCheckpoint else w.finalizedCheckpoint
  balances : w'.justifiedBalances =
    if (w.unrealizedEpochs order).any (w.justifiedCheckpoint.epoch < ·)
    then balances else w.justifiedBalances

variable {cfg} {balances : List Nat} {w : World}

variable (cfg) in
theorem updateJustifiedBalances_run (hbalances : w.balancesByRoot 0 = some balances) :
    ∃ committeeWeight numActiveValidators, updateJustifiedBalances cfg w = .ok () { w with
      justifiedBalances := balances
      committeeWeight
      numActiveValidators
      balancesByRoot := fun k => w.balancesByRoot (k + 1) } := by
  unfold updateJustifiedBalances
  rw [hbalances]
  exact ⟨_, _, rfl⟩

variable (cfg) in
/-- The handler answers, so the balances are those at the new checkpoint. -/
theorem realizeJustified_run (hbalances : ∀ k, w.balancesByRoot k = some balances) (node : Nat) :
    ∃ w', realizeJustified cfg node w = .ok () w' ∧ w'.heap = w.heap ∧
      w'.finalizedCheckpoint = w.finalizedCheckpoint ∧
      w'.unrealizedJustifiedCheckpoint = w.unrealizedJustifiedCheckpoint ∧
      w'.unrealizedFinalizedCheckpoint = w.unrealizedFinalizedCheckpoint ∧
      (∀ k, w'.balancesByRoot k = some balances) ∧
      if w.justifiedCheckpoint.epoch < (w.heap node).justifiedEpoch then
        w'.justifiedCheckpoint = w.unrealizedJustifiedCheckpoint ∧
        w'.prevJustifiedCheckpoint = w.justifiedCheckpoint ∧ w'.justifiedBalances = balances
      else w' = w := by
  unfold realizeJustified
  rw [get_bind_run]
  split_ifs with h
  · obtain ⟨_, _, hrun⟩ := updateJustifiedBalances_run cfg (w := { w with
        prevJustifiedCheckpoint := w.justifiedCheckpoint
        justifiedCheckpoint := w.unrealizedJustifiedCheckpoint }) (hbalances 0)
    exact ⟨_, mapError_of_ok hrun, rfl, rfl, rfl, rfl, fun k => hbalances (k + 1), rfl, rfl, rfl⟩
  · exact ⟨w, rfl, rfl, rfl, rfl, rfl, hbalances, rfl⟩

theorem realizeFinalized_run (w : World) (node : Nat) :
    realizeFinalized node w = .ok () { w with finalizedCheckpoint :=
      if w.finalizedCheckpoint.epoch < (w.heap node).finalizedEpoch
      then w.unrealizedFinalizedCheckpoint else w.finalizedCheckpoint } := by
  unfold realizeFinalized
  rw [get_bind_run]
  split_ifs <;> rfl

variable (cfg) in
/-- One round: the node is realized, and the store follows it. -/
theorem realizeNode_run (hbalances : ∀ k, w.balancesByRoot k = some balances) (node : Nat) :
    ∃ w', realizeNode cfg node w = .ok () w' ∧ Realizes balances [node] w w' ∧
      (∀ k, w'.balancesByRoot k = some balances) ∧
      w'.unrealizedJustifiedCheckpoint = w.unrealizedJustifiedCheckpoint ∧
      w'.unrealizedFinalizedCheckpoint = w.unrealizedFinalizedCheckpoint := by
  have hheap : ∀ i, (w.modifyNode node Node.realize).heap i =
      if i ∈ [node] then (w.heap i).realize else w.heap i := by
    intro i
    rw [World.modifyNode_heap]
    grind
  have hnode : (w.modifyNode node Node.realize).heap node = (w.heap node).realize := by
    rw [hheap, if_pos (mem_singleton_self _)]
  obtain ⟨w₁, hrun, hheap₁, hfin, huj, huf, hnext, hjust⟩ :=
    realizeJustified_run cfg (w := w.modifyNode node Node.realize) hbalances node
  have hround : realizeNode cfg node w = realizeFinalized node w₁ := bind_of_ok hrun
  rw [hnode] at hjust
  refine ⟨_, hround.trans (realizeFinalized_run w₁ node), ⟨fun i => ?_, ?_, ?_, ?_, ?_⟩, hnext, huj,
    huf⟩
  · exact (congrFun hheap₁ i).trans (hheap i)
  · grind [World.modifyNode, Store.unrealizedEpochs, Node.realize]
  · grind [World.modifyNode, Store.unrealizedEpochs, Node.realize, lastReplaced]
  · grind [World.modifyNode, Node.realize]
  · grind [World.modifyNode, Store.unrealizedEpochs, Node.realize]

theorem Realizes.cons {node : Nat} {order : List Nat} {w₁ w' : World}
    (hnode : Realizes balances [node] w w₁) (hrest : Realizes balances order w₁ w')
    (huj : w₁.unrealizedJustifiedCheckpoint = w.unrealizedJustifiedCheckpoint)
    (huf : w₁.unrealizedFinalizedCheckpoint = w.unrealizedFinalizedCheckpoint) :
    Realizes balances (node :: order) w w' := by
  -- realizing a node leaves its unrealized epochs as they are
  have hj : ∀ i, (w₁.heap i).unrealizedJustifiedEpoch = (w.heap i).unrealizedJustifiedEpoch := by
    intro i
    rw [hnode.heap]
    split_ifs <;> rfl
  have hf : ∀ i, (w₁.heap i).unrealizedFinalizedEpoch = (w.heap i).unrealizedFinalizedEpoch := by
    intro i
    rw [hnode.heap]
    split_ifs <;> rfl
  have hepochs : w₁.unrealizedEpochs order = w.unrealizedEpochs order :=
    map_congr_left fun i _ => hj i
  have hcons : w.unrealizedEpochs (node :: order) =
      (w.heap node).unrealizedJustifiedEpoch :: w.unrealizedEpochs order := rfl
  have hfirst : w.unrealizedEpochs [node] = [(w.heap node).unrealizedJustifiedEpoch] := rfl
  have hj₁ := hnode.justified
  have hp₁ := hnode.prevJustified
  have hb₁ := hnode.balances
  have hf₁ := hnode.finalized
  rw [hfirst] at hj₁ hp₁ hb₁
  refine ⟨fun i => ?_, ?_, ?_, ?_, ?_⟩
  · rw [hrest.heap, hnode.heap]
    grind [Node.realize]
  · rw [hrest.justified, hepochs, huj, hcons]
    grind
  · rw [hrest.prevJustified, hepochs, huj, hcons, lastReplaced]
    by_cases hlt : w.justifiedCheckpoint.epoch < (w.heap node).unrealizedJustifiedEpoch
    · simp only [hlt, any_cons, decide_true, Bool.true_or, if_true, lastReplaced,
        any_nil] at hj₁ hp₁
      rw [hj₁, lastReplaced_self, hp₁, if_pos hlt]
      rfl
    · simp only [hlt, any_cons, decide_false, Bool.false_or, any_nil,
        Bool.false_eq_true, if_false, lastReplaced] at hj₁ hp₁
      rw [hj₁, hp₁, if_neg hlt]
  · rw [hrest.finalized, huf]
    simp only [hf]
    grind
  · rw [hrest.balances, hepochs, hcons]
    grind

variable (cfg) in
theorem updateUnrealizedCheckpoints_run (hbalances : ∀ k, w.balancesByRoot k = some balances)
    (order : List Nat) :
    ∃ w', updateUnrealizedCheckpoints cfg order w = .ok () w' ∧ Realizes balances order w w' := by
  induction order generalizing w with
  | nil => exact ⟨w, rfl, fun i => by simp, rfl, rfl, rfl, rfl⟩
  | cons node order ih =>
    obtain ⟨w₁, hrun, hnode, hnext, huj, huf⟩ := realizeNode_run cfg hbalances node
    obtain ⟨w', hrest, hrealizes⟩ := ih hnext
    refine ⟨w', ?_, hnode.cons hrealizes huj huf⟩
    rw [updateUnrealizedCheckpoints, foldlM_cons]
    exact (bind_of_ok hrun).trans hrest

end Loop

/-- The nodes of the map, each of them once. -/
structure Store.Ranges (s : Store) (order : List Nat) : Prop where
  nodup : order.Nodup
  mem : ∀ i, i ∈ order ↔ ∃ r, s.nodeByRoot r = some i

/-- The checkpoints, the balances and the epochs of the nodes that a round has left. -/
structure SameRealization (w w' : World) : Prop where
  justified : w'.justifiedCheckpoint = w.justifiedCheckpoint
  prevJustified : w'.prevJustifiedCheckpoint = w.prevJustifiedCheckpoint
  finalized : w'.finalizedCheckpoint = w.finalizedCheckpoint
  balances : w'.justifiedBalances = w.justifiedBalances
  epochs : ∀ i, (w'.heap i).justifiedEpoch = (w.heap i).justifiedEpoch ∧
    (w'.heap i).finalizedEpoch = (w.heap i).finalizedEpoch

/-- The start of a call during which the balance handler answers by the root. All its answers are
for the root of the unrealized checkpoint. -/
def ForkChoice.answering (f : ForkChoice) (balancesOf : Nat → List Nat) : World :=
  { f with balancesByRoot := fun _ => some (balancesOf f.unrealizedJustifiedCheckpoint.root) }

/-- The store after the round in a given order. -/
def ForkChoice.realized (cfg : BeaconChainConfig) (f : ForkChoice) (balancesOf : Nat → List Nat)
    (order : List Nat) : World :=
  after (updateUnrealizedCheckpoints cfg order) (f.answering balancesOf)

variable {cfg : BeaconChainConfig} {f : ForkChoice} {order order' : List Nat}

theorem realized_realizes (cfg : BeaconChainConfig) (f : ForkChoice) (balancesOf : Nat → List Nat) (order : List Nat) :
    Realizes (balancesOf f.unrealizedJustifiedCheckpoint.root) order (f.answering balancesOf)
      (f.realized cfg balancesOf order) := by
  obtain ⟨w', hrun, hrealizes⟩ := updateUnrealizedCheckpoints_run cfg
    (w := f.answering balancesOf) (fun _ => rfl) order
  rwa [ForkChoice.realized, after_of_ok hrun]

/-- Only the previous justified checkpoint can tell two orders apart. -/
theorem sameRealization_iff (balancesOf : Nat → List Nat) (hperm : order'.Perm order) :
    SameRealization (f.realized cfg balancesOf order) (f.realized cfg balancesOf order') ↔
      lastReplaced f.justifiedCheckpoint f.unrealizedJustifiedCheckpoint
          f.prevJustifiedCheckpoint (f.unrealizedEpochs order') =
        lastReplaced f.justifiedCheckpoint f.unrealizedJustifiedCheckpoint
          f.prevJustifiedCheckpoint (f.unrealizedEpochs order) := by
  have h := realized_realizes cfg f balancesOf order
  have h' := realized_realizes cfg f balancesOf order'
  have hepochs : ((f.answering balancesOf).unrealizedEpochs order').Perm
      ((f.answering balancesOf).unrealizedEpochs order) := hperm.map _
  constructor
  · intro hsame
    exact h'.prevJustified.symm.trans (hsame.prevJustified.trans h.prevJustified)
  · intro hprev
    refine ⟨?_, h'.prevJustified.trans (hprev.trans h.prevJustified.symm), ?_, ?_, fun i => ?_⟩
    · rw [h.justified, h'.justified, hepochs.any_eq]
    · rw [h.finalized, h'.finalized, hperm.any_eq]
    · rw [h.balances, h'.balances, hepochs.any_eq]
    · rw [h.heap, h'.heap]
      simp only [hperm.mem_iff, and_self]

def Store.nodes (s : Store) : List Nat := (List.range s.next).filter (s.Live ·)

variable {s : Store}

theorem Allocated.ranges_nodes (h : Allocated s) : s.Ranges s.nodes := by
  refine ⟨List.nodup_range.filter _, fun i => ?_⟩
  rw [Store.nodes, mem_filter, mem_range, decide_eq_true_iff]
  constructor
  · rintro ⟨-, hlive⟩
    exact ⟨_, hlive⟩
  · rintro ⟨r, hr⟩
    exact ⟨(h.keyed r i hr).2, h.live hr⟩

theorem Store.Ranges.perm (h : s.Ranges order) (h' : s.Ranges order') : order'.Perm order :=
  (perm_ext_iff_of_nodup h'.nodup h.nodup).2 fun i => by rw [h.mem, h'.mem]

theorem Store.Ranges.of_perm (h : s.Ranges order) (hperm : order'.Perm order) : s.Ranges order' :=
  ⟨hperm.nodup_iff.2 h.nodup, fun i => by rw [hperm.mem_iff, h.mem]⟩

/-- An order of the epochs comes from an order of the nodes. -/
theorem exists_order_of_perm {es : List Nat} (hperm : es.Perm (s.unrealizedEpochs order)) :
    ∃ order' : List Nat, order'.Perm order ∧ s.unrealizedEpochs order' = es := by
  have hread : List.Forall₂ (fun e i => e = (s.heap i).unrealizedJustifiedEpoch)
      (s.unrealizedEpochs order) order :=
    forall₂_map_left_iff.2 (forall₂_same.2 fun _ _ => rfl)
  obtain ⟨order', hes, horder⟩ := perm_comp_forall₂ hperm hread
  refine ⟨order', horder, ?_⟩
  rw [Store.unrealizedEpochs, ← forall₂_eq_eq_eq]
  exact forall₂_map_left_iff.2 (hes.flip.imp fun _ _ h => h.symm)

/-- All orders of the map lead to the same outcome exactly if the epochs of the nodes are not
ambiguous. -/
theorem realization_order_iff (cfg : BeaconChainConfig) (calls : List Call)
    (balancesOf : Nat → List Nat) :
    (∀ order order', (run cfg calls).Ranges order → (run cfg calls).Ranges order' →
      SameRealization ((run cfg calls).realized cfg balancesOf order)
        ((run cfg calls).realized cfg balancesOf order')) ↔
      ¬ Ambiguous (run cfg calls).justifiedCheckpoint
        (run cfg calls).unrealizedJustifiedCheckpoint
        ((run cfg calls).unrealizedEpochs (run cfg calls).nodes) := by
  have hnodes := (allocated_run cfg calls).ranges_nodes
  generalize run cfg calls = f at hnodes ⊢
  constructor
  · intro hsame hambiguous
    obtain ⟨es, hperm, hne⟩ := exists_perm_of_ambiguous f.prevJustifiedCheckpoint hambiguous
    obtain ⟨order', horder, rfl⟩ := exists_order_of_perm hperm
    exact hne ((sameRealization_iff balancesOf horder).1
      (hsame _ _ hnodes (hnodes.of_perm horder)))
  · intro hclear order order' hrange hrange'
    have hperm : (f.unrealizedEpochs order').Perm (f.unrealizedEpochs order) :=
      (hrange.perm hrange').map _
    have hfirst : (f.unrealizedEpochs order).Perm (f.unrealizedEpochs f.nodes) :=
      (hnodes.perm hrange).map _
    refine (sameRealization_iff balancesOf (hrange.perm hrange')).2 ?_
    rw [lastReplaced_perm hclear (hperm.trans hfirst), lastReplaced_perm hclear hfirst]

/-- A block whose justified checkpoint is not realized yet, and a competing one that has finalized
more and justified less. -/
def competingTips : List Call :=
  [.insertTimely ⟨1, 0, 0, some 0⟩ ⟨0, 0⟩ ⟨0, 0⟩ ⟨0, 0⟩ ⟨0, 0⟩,
    .insertTimely ⟨2, 200, 1, some 0⟩ ⟨0, 0⟩ ⟨0, 0⟩ ⟨5, 1⟩ ⟨2, 1⟩,
    .insertTimely ⟨3, 201, 1, some 0⟩ ⟨0, 0⟩ ⟨0, 0⟩ ⟨4, 1⟩ ⟨3, 1⟩]

/-- The previous justified checkpoint depends on which of the two tips is realized first. -/
theorem realization_order_matters :
    (run {} competingTips).Ranges [1, 2, 0] ∧ (run {} competingTips).Ranges [2, 1, 0] ∧
      ((run {} competingTips).realized {} (fun _ => []) [1, 2, 0]).prevJustifiedCheckpoint =
        ⟨0, 0⟩ ∧
      ((run {} competingTips).realized {} (fun _ => []) [2, 1, 0]).prevJustifiedCheckpoint =
        ⟨4, 1⟩ := by
  have hnodes : (run {} competingTips).Ranges [0, 1, 2] := by
    have hlist : (run {} competingTips).nodes = [0, 1, 2] := by decide +kernel
    exact hlist ▸ (allocated_run {} competingTips).ranges_nodes
  exact ⟨hnodes.of_perm (by decide), hnodes.of_perm (by decide), by decide +kernel,
    by decide +kernel⟩

end LightChain.DoublyLinkedTree

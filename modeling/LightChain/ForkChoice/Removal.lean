import LightChain.ForkChoice.Tree

/-!
# Removing and pruning

Removing a node and pruning are traversals of the block tree that take nodes out of the map.
`Erases` and `Cuts` say what they do to a set of nodes when they are not cancelled. A tree
remains after removing a node, and after pruning if no child of the finalized node is pruned:
such a child stays in the list of children of the finalized node.
-/
namespace LightChain.DoublyLinkedTree
open Library Program List Function

section Remove

/-- A set of nodes has left the map, with what they had of the boost. -/
structure Erases (S : Set Nat) (w w' : World) : Prop where
  rest : w' = { w with
    nodeByRoot := w'.nodeByRoot
    proposerBoostRoot := w'.proposerBoostRoot
    previousProposerBoostRoot := w'.previousProposerBoostRoot
    previousProposerBoostScore := w'.previousProposerBoostScore }
  gone : ∀ i ∈ S, w'.nodeByRoot (w.heap i).root = none
  kept : ∀ r, (∀ i ∈ S, (w.heap i).root ≠ r) → w'.nodeByRoot r = w.nodeByRoot r

theorem Erases.heap {S : Set Nat} {w w' : World} (h : Erases S w w') : w'.heap = w.heap := by
  rw [h.rest]

theorem erases_footprint (kids : Nat → List Nat) : Footprint kids Erases where
  refl w := ⟨rfl, fun _ h => h.elim, fun _ _ => rfl⟩
  comp {S T u v w} _ _ huv hvw := by
    refine ⟨by rw [hvw.rest, huv.rest], ?_, fun r hr => ?_⟩
    · rintro i (hi | hi)
      · by_cases hT : ∃ j ∈ T, (v.heap j).root = (u.heap i).root
        · obtain ⟨j, hj, hroot⟩ := hT
          rw [← hroot]
          exact hvw.gone j hj
        · rw [hvw.kept _ fun j hj hroot => hT ⟨j, hj, hroot⟩]
          exact huv.gone i hi
      · rw [← huv.heap]
        exact hvw.gone i hi
    · rw [hvw.kept r fun i hi => huv.heap ▸ hr i (.inr hi), huv.kept r fun i hi => hr i (.inl hi)]

theorem forget_erases (w : World) (n : Nat) : Erases {n} w (w.forget (w.heap n).root) := by
  refine ⟨rfl, ?_, fun r hr => ?_⟩
  · rintro i rfl
    exact update_self _ _ _
  · exact update_of_ne (hr n rfl).symm _ _

theorem ctxErr_run {w : World} (h : w.ctx = none) : ctxErr w = .ok () w := by
  rw [ctxErr, h]

theorem removeNodeAndChildren_erases {kids : Nat → List Nat} (hforest : Forest kids id)
    {fuel n : Nat} {w : World} (roots : List Nat) (hctx : w.ctx = none)
    (hkids : ∀ i ∈ subtree kids n, (w.heap i).children = kids i) (hfits : Fits kids id fuel n) :
    ∃ w', removeNodeAndChildren fuel n roots w =
        .ok (roots ++ (postorder kids fuel n).map fun i => (w.heap i).root) w' ∧
      Erases (subtree kids n) w w' := by
  induction fuel generalizing n w roots with
  | zero => exact absurd rfl hfits.ne_zero
  | succ fuel ih =>
    have hfp := erases_footprint kids
    obtain ⟨w₁, hrun, hw₁⟩ := foldlM_does hfp
      (f := fun invalidRoots child => do
        ctxErr
        removeNodeAndChildren fuel child invalidRoots)
      (g := fun w roots c => roots ++ (postorder kids fuel c).map fun i => (w.heap i).root)
      (s := w) (hforest.pairwise_disjoint n)
      (fun _ _ hdoes => by rw [hdoes.heap])
      (fun {S t} roots c hc _ hdoes => by
        have htctx : t.ctx = none := by rw [hdoes.rest]; exact hctx
        obtain ⟨t', hrun, ht'⟩ := ih roots htctx
          (fun i hi => by rw [hdoes.heap]; exact hkids i (.head hc hi)) (hfits.child hforest hc)
        refine ⟨t', ?_, ht'⟩
        rw [bind_of_ok (ctxErr_run htctx), hrun, ht'.heap])
      roots
    have hroot : w₁.heap n = w.heap n := by rw [hw₁.heap]
    refine ⟨w₁.forget (w.heap n).root, ?_, ?_⟩
    · rw [removeNodeAndChildren, get_bind_run, hkids n (self_mem_subtree n), bind_of_ok hrun,
        hw₁.heap, get_bind_run, modify_bind_run, pure_run, hroot, foldl_append_eq_append,
        postorder, map_append, map_flatMap, append_assoc]
      rfl
    · rw [subtree_eq, ← hroot]
      exact hfp.comp (closed_subtrees _) (Set.disjoint_singleton_right.2
        (hforest.not_mem_subtrees n)) hw₁ (forget_erases w₁ n)

theorem removeChild_perm {children : List Nat} {node : Nat} (h : node ∈ children) :
    (removeChild children node).Perm (children.erase node) := by
  obtain ⟨a, b, rfl, ha⟩ := eq_append_cons_of_mem h
  have herase : (a ++ node :: b).erase node = a ++ b := by
    rw [erase_append_right _ ha, erase_cons_head]
  have hidx : (a ++ node :: b).idxOf node = a.length := by
    rw [idxOf_append_of_notMem ha, idxOf_cons_self, Nat.add_zero]
  unfold removeChild
  rw [herase, if_pos h, hidx]
  split_ifs with hlength
  · have hnil : a = [] ∧ b = [] := by
      rw [← length_eq_zero_iff, ← length_eq_zero_iff]
      simp only [length_append, length_cons] at hlength
      omega
    simp [hnil]
  · rcases eq_nil_or_concat' b with rfl | ⟨b, l, rfl⟩
    · simp
    · rw [← cons_append, ← append_assoc, getLastD_concat]
      simp only [cons_append, append_assoc, set_append_right _ _ le_rfl,
        Nat.sub_self, set_cons_zero]
      rw [← cons_append, ← append_assoc, dropLast_concat]
      exact (perm_append_singleton l b).symm.append_left a

section RemoveNode

variable {w : World} {n p : Nat}

section

variable (h : IsTree w.toStore) (hctx : w.ctx = none) (hlive : w.Live n)

include h hctx hlive

theorem removeNode_erases (hoptimistic : (w.heap n).optimistic = true)
    (hp : (w.heap n).parent = some p) :
    ∃ roots w', removeNode n w = .ok roots w' ∧
      (∀ r, r ∈ roots ↔ ∃ i ∈ subtree w.kids n, (w.heap i).root = r) ∧
      Erases (subtree w.kids n)
        (w.modifyNode p fun q => { q with children := removeChild q.children n }) w' := by
  generalize hw₁ : w.modifyNode p (fun q => { q with children := removeChild q.children n }) = w₁
  have hlt := (h.allocated.parent n p hp).1
  have hbelow : ∀ i ∈ subtree w.kids n, w₁.heap i = w.heap i := by
    intro i hi
    have : n ≤ i := h.forest.rank_le hi
    rw [← hw₁, World.modifyNode_heap, if_neg (by omega)]
  have hfits : Fits w.kids id w.next n := by
    intro i hi
    have := h.allocated.lt_of_live (h.live_of_mem_subtree hlive hi)
    simp only [id]
    omega
  obtain ⟨w', hrun, herases⟩ := removeNodeAndChildren_erases h.forest (w := w₁) []
    (by rw [← hw₁]; exact hctx) (fun i hi => by
      rw [hbelow i hi, kids_of_live (h.live_of_mem_subtree hlive hi)]) hfits
  refine ⟨[] ++ (postorder w.kids w.next n).map fun i => (w₁.heap i).root, w', ?_, fun r => ?_,
    herases⟩
  · rw [removeNode, get_bind_run]
    simp only [hoptimistic, hp, Bool.not_true, Bool.false_eq_true, if_false, modifyNode,
      modify_bind_run, hw₁]
    exact hrun
  · simp only [nil_append, mem_map, mem_postorder h.forest hfits]
    constructor
    · rintro ⟨i, hi, hr⟩
      exact ⟨i, hi, by rw [← hbelow i hi]; exact hr⟩
    · rintro ⟨i, hi, hr⟩
      exact ⟨i, hi, by rw [hbelow i hi]; exact hr⟩

/-- `removeNode` does nothing to a node that is validated or has no parent. -/
theorem removeNode_cases :
    after (removeNode n) w = w ∨ ∃ p, (w.heap n).optimistic = true ∧
      (w.heap n).parent = some p ∧ Erases (subtree w.kids n)
        (w.modifyNode p fun q => { q with children := removeChild q.children n })
        (after (removeNode n) w) := by
  cases hoptimistic : (w.heap n).optimistic with
  | false => exact .inl (by simp [DoublyLinkedTree.removeNode, hoptimistic])
  | true =>
    cases hp : (w.heap n).parent with
    | none => exact .inl (by simp [DoublyLinkedTree.removeNode, hoptimistic, hp])
    | some p =>
      obtain ⟨roots, w', hrun, -, herases⟩ := removeNode_erases h hctx hlive hoptimistic hp
      rw [after_of_ok hrun]
      exact .inr ⟨p, rfl, rfl, herases⟩

theorem IsTree.removeNode : IsTree (after (removeNode n) w).toStore := by
  have hshrinks := removeNode_shrinks n w
  rcases removeNode_cases h hctx hlive with hend | ⟨p, -, hp, herases⟩
  · rw [hend]
    exact h
  generalize after (DoublyLinkedTree.removeNode n) w = w' at hshrinks herases ⊢
  have hmem := h.mem_children hlive hp
  have hheap : ∀ i, w'.heap i = if i = p then
      { w.heap p with children := removeChild (w.heap p).children n } else w.heap i := by
    intro i
    rw [herases.heap, World.modifyNode_heap]
  have hfield : ∀ i, (w'.heap i).root = (w.heap i).root ∧
      (w'.heap i).parent = (w.heap i).parent := by
    intro i
    rw [hheap]
    split_ifs with hi <;> simp [hi]
  have hroot : w'.treeRootNode = w.treeRootNode := by rw [herases.rest]; rfl
  -- The only way into the subtree from outside is the edge that is cut.
  have hinto : ∀ {q c}, w.Live q → q ∉ subtree w.kids n → c ∈ (w.heap q).children →
      c ∈ subtree w.kids n → c = n := by
    intro q c hq hqS hc hcS
    rcases Relation.ReflTransGen.cases_tail hcS with rfl | ⟨q', hq'S, hcq'⟩
    · rfl
    · exact absurd (h.forest.unique hcq' (mem_kids.2 ⟨hq, hc⟩) ▸ hq'S) hqS
  refine h.restrict hshrinks.sameShape (S := subtree w.kids n) ?_ ?_ ?_ ?_ ?_
  · refine live_iff_of_erased (fun i => (hfield i).1)
      (fun i hi => h.live_of_mem_subtree hlive hi) (fun i hi => ?_) fun r hr => ?_
    · rw [← (hfield i).1, herases.heap]
      exact herases.gone i hi
    · exact herases.kept r fun i hi => by
        rw [← herases.heap, (hfield i).1]
        exact hr i hi
  · intro q hq hqS
    rw [hheap]
    split_ifs with hqp
    · subst hqp
      refine ⟨(removeChild_perm hmem).nodup_iff.2 ((h.nodup q hq).erase n), fun c => ?_⟩
      rw [(removeChild_perm hmem).mem_iff, (h.nodup q hq).mem_erase_iff, and_comm]
      refine and_congr_right fun hc => ⟨fun hne hcS => hne (hinto hq hqS hc hcS), ?_⟩
      rintro hcS rfl
      exact hcS (self_mem_subtree c)
    · refine ⟨h.nodup q hq, fun c => ⟨fun hc => ⟨hc, fun hcS => hqp ?_⟩, And.left⟩⟩
      have hparent := (h.children q hq c hc).2
      rw [hinto hq hqS hc hcS, hp] at hparent
      exact (Option.some.inj hparent).symm
  · intro t ht
    obtain ⟨htl, hnone⟩ := h.root t (hroot ▸ ht)
    refine ⟨htl, fun htS => ?_, (hfield t).2.trans hnone⟩
    rcases Relation.ReflTransGen.cases_tail htS with rfl | ⟨q, -, htq⟩
    · cases hp.symm.trans hnone
    · cases ((h.children q (mem_kids.1 htq).1 t (mem_kids.1 htq).2).2).symm.trans hnone
  · intro i hi hiS
    rw [hroot]
    refine (h.parent i hi).imp_right fun ⟨q, hq, hlq, hmem⟩ => ⟨q, hq, fun hqS => hiS ?_⟩
    exact closed_subtree n q hqS i (mem_kids.2 ⟨hlq, hmem⟩)
  · intro i q _ _ hq _
    exact (hfield i).2.trans hq

end

end RemoveNode

end Remove

section Prune

/-- A set of nodes, apart from the finalized one, is out of the map and has no children. -/
structure Cuts (finalizedNode : Nat) (S : Set Nat) (w w' : World) : Prop where
  rest : w' = { w with heap := w'.heap, nodeByRoot := w'.nodeByRoot }
  cut : ∀ i ∈ S, i ≠ finalizedNode → w'.heap i = { w.heap i with children := [] }
  finalized : w'.heap finalizedNode =
    { w.heap finalizedNode with target := (w'.heap finalizedNode).target }
  other : ∀ i ∉ S, w'.heap i = w.heap i
  gone : ∀ i ∈ S, i ≠ finalizedNode → w'.nodeByRoot (w.heap i).root = none
  kept : ∀ r, (∀ i ∈ S, i ≠ finalizedNode → (w.heap i).root ≠ r) →
    w'.nodeByRoot r = w.nodeByRoot r
  target : finalizedNode ∈ S → (w'.heap finalizedNode).target =
    if (w.heap finalizedNode).target = some finalizedNode then some finalizedNode else none

variable {finalizedNode : Nat}

theorem Cuts.root {S : Set Nat} {w w' : World} (h : Cuts finalizedNode S w w') (i : Nat) :
    (w'.heap i).root = (w.heap i).root := by
  by_cases hf : i = finalizedNode
  · rw [hf, h.finalized]
  · by_cases hi : i ∈ S
    · rw [h.cut i hi hf]
    · rw [h.other i hi]

theorem cuts_footprint (finalizedNode : Nat) (kids : Nat → List Nat) : Footprint kids (Cuts finalizedNode) where
  refl w := ⟨rfl, fun _ h => h.elim, rfl, fun _ _ => rfl, fun _ h => h.elim, fun _ _ => rfl,
    fun h => h.elim⟩
  comp {S T u v w} _ hST huv hvw := by
    refine ⟨by rw [hvw.rest, huv.rest], ?_, by rw [hvw.finalized, huv.finalized], ?_, ?_, ?_, ?_⟩
    · rintro i (hi | hi) hf
      · rw [hvw.other i (Set.disjoint_left.1 hST hi), huv.cut i hi hf]
      · rw [hvw.cut i hi hf, huv.other i (Set.disjoint_right.1 hST hi)]
    · intro i hi
      rw [hvw.other i fun h => hi (.inr h), huv.other i fun h => hi (.inl h)]
    · rintro i (hi | hi) hf
      · by_cases hT : ∃ j ∈ T, j ≠ finalizedNode ∧ (v.heap j).root = (u.heap i).root
        · obtain ⟨j, hj, hjf, hroot⟩ := hT
          rw [← hroot]
          exact hvw.gone j hj hjf
        · rw [hvw.kept _ fun j hj hjf hroot => hT ⟨j, hj, hjf, hroot⟩]
          exact huv.gone i hi hf
      · rw [← huv.root]
        exact hvw.gone i hi hf
    · intro r hr
      rw [hvw.kept r fun i hi hf => huv.root i ▸ hr i (.inr hi) hf,
        huv.kept r fun i hi => hr i (.inl hi)]
    · rintro (hi | hi)
      · rw [hvw.other _ (Set.disjoint_left.1 hST hi), huv.target hi]
      · rw [hvw.target hi, huv.other _ (Set.disjoint_right.1 hST hi)]

theorem target_cuts (w : World) (n : Nat) : Cuts n {n} w (w.modifyNode n fun a =>
    { a with target := if a.target = some n then a.target else none }) := by
  refine ⟨rfl, fun i hi hf => absurd hi hf, ?_, fun i hi => ?_, fun i hi hf => absurd hi hf,
    fun r _ => rfl, fun _ => ?_⟩
  · rw [World.modifyNode_heap, if_pos rfl]
  · rw [World.modifyNode_heap, if_neg (show i ≠ n from hi)]
  · rw [World.modifyNode_heap, if_pos rfl]
    split_ifs with htarget
    · exact htarget
    · rfl

theorem cutNode_cuts (w : World) {n : Nat} (hn : n ≠ finalizedNode) :
    Cuts finalizedNode {n} w { w.modifyNode n fun a => { a with children := [] } with
      nodeByRoot := Function.update w.nodeByRoot (w.heap n).root none } := by
  refine ⟨rfl, ?_, ?_, fun i hi => ?_, ?_, fun r hr => ?_, fun h => absurd h.symm hn⟩
  · rintro i rfl -
    dsimp only
    rw [World.modifyNode_heap, if_pos rfl]
  · rw [World.modifyNode_heap, if_neg hn.symm]
  · dsimp only
    rw [World.modifyNode_heap, if_neg (show i ≠ n from hi)]
  · rintro i rfl -
    exact update_self _ _ _
  · exact update_of_ne (hr n rfl hn).symm _ _

variable {w : World}

theorem pruneFinalizedNodeByRootMap_cuts {kids : Nat → List Nat} (hforest : Forest kids id)
    (finalizedNode fuel n : Nat) (hctx : w.ctx = none) (hfinalized : kids finalizedNode = [])
    (hkids : ∀ i ∈ subtree kids n, i ≠ finalizedNode → (w.heap i).children = kids i)
    (hfits : Fits kids id fuel n) :
    ∃ w', pruneFinalizedNodeByRootMap finalizedNode fuel n w = .ok () w' ∧
      Cuts finalizedNode (subtree kids n) w w' := by
  induction fuel generalizing n w with
  | zero => exact absurd rfl hfits.ne_zero
  | succ fuel ih =>
    rw [pruneFinalizedNodeByRootMap, bind_of_ok (ctxErr_run hctx)]
    have hfp := cuts_footprint finalizedNode kids
    split_ifs with hn
    · subst hn
      rw [subtree_eq, hfinalized, subtrees_nil, Set.empty_union]
      exact ⟨_, rfl, target_cuts w n⟩
    · obtain ⟨w₁, hrun, hw₁⟩ := foldlM_does hfp
        (f := fun _ child => pruneFinalizedNodeByRootMap finalizedNode fuel child)
        (g := fun _ _ _ => ()) (s := w) (hforest.pairwise_disjoint n) (fun _ _ _ => rfl)
        (fun {S t} _ c hc hdisjoint hdoes => by
          refine ih c (by rw [hdoes.rest]; exact hctx) (fun i hi hf => ?_) (hfits.child hforest hc)
          rw [hdoes.other i (Set.disjoint_right.1 hdisjoint hi)]
          exact hkids i (.head hc hi) hf) ()
      rw [get_bind_run, hkids n (self_mem_subtree n) hn, bind_of_ok hrun]
      refine ⟨_, rfl, ?_⟩
      rw [subtree_eq]
      refine hfp.comp (closed_subtrees _) (Set.disjoint_singleton_right.2
        (hforest.not_mem_subtrees n)) hw₁ (cutNode_cuts w₁ hn)

/-- What the first pass of `prune` visits from the root, without the finalized node. -/
def Store.outside (s : Store) (finalizedNode root : Nat) : Set Nat :=
  {i | i ∈ subtree (stopAt s.kids finalizedNode) root ∧ i ≠ finalizedNode}

section Outside

variable {s : Store} {root i p : Nat}

section

variable (h : IsTree s) (hroot : s.treeRootNode = some root)

include h hroot

theorem IsTree.live_of_outside (hi : i ∈ s.outside finalizedNode root) : s.Live i :=
  h.live_of_mem_subtree (h.root root hroot).1 (subtree_stopAt_subset _ _ hi.1)

theorem IsTree.outside_iff (hi : s.Live i) (hp : (s.heap i).parent = some p)
    (hne : i ≠ finalizedNode) :
    i ∈ s.outside finalizedNode root ↔ p ∈ s.outside finalizedNode root := by
  constructor
  · rintro ⟨hi, -⟩
    rcases Relation.ReflTransGen.cases_tail hi with rfl | ⟨q, hq, hiq⟩
    · cases hp.symm.trans (h.root _ hroot).2
    · obtain ⟨hqf, hiq⟩ := mem_stopAt.1 hiq
      rw [mem_kids] at hiq
      cases hp.symm.trans (h.children q hiq.1 i hiq.2).2
      exact ⟨hq, hqf⟩
  · rintro ⟨hp', hpf⟩
    exact ⟨hp'.tail (mem_stopAt.2 ⟨hpf, mem_kids.2 ⟨h.live_parent hi hp, h.mem_children hi hp⟩⟩), hne⟩

theorem IsTree.parent_outside (hlive : s.Live finalizedNode)
    (hp : (s.heap finalizedNode).parent = some p) : p ∈ s.outside finalizedNode root := by
  have hlt := (h.allocated.parent _ p hp).1
  refine ⟨(mem_subtree_stopAt (h.mem_subtree_root hroot (h.live_parent hlive hp))).resolve_right
    fun hbelow => ?_, hlt.ne⟩
  have : finalizedNode ≤ p := h.forest.rank_le hbelow
  omega

end

end Outside

/-- The first pass of `prune` leaves the tree below the finalized node. -/
theorem pruneToRoot_isTree {parent : Nat} (h : IsTree w.toStore) (hctx : w.ctx = none)
    (hlive : w.Live finalizedNode) (hparent : (w.heap finalizedNode).parent = some parent) :
    ∃ w', pruneToRoot finalizedNode parent w = .ok () w' ∧ IsTree w'.toStore ∧
      (w'.heap finalizedNode).children = (w.heap finalizedNode).children := by
  obtain ⟨root, hroot⟩ := Option.isSome_iff_exists.1 (h.allocated.rooted _ _ hlive).1
  have hbelow : ∀ i ∈ subtree (stopAt w.kids finalizedNode) root, w.Live i := fun i hi =>
    h.live_of_mem_subtree (h.root root hroot).1 (subtree_stopAt_subset _ _ hi)
  generalize hw₁ : ({ w with finalizedDependentRoot := (w.heap parent).root } : World) = w₁
  obtain ⟨w₂, hrun, hcuts⟩ := pruneFinalizedNodeByRootMap_cuts (h.forest.stopAt finalizedNode)
    finalizedNode w.next root (w := w₁) (by rw [← hw₁]; exact hctx) (if_pos rfl)
    (fun i hi hf => by rw [← hw₁, stopAt, if_neg hf, kids_of_live (hbelow i hi)])
    (fun i hi => by
      have := h.allocated.lt_of_live (hbelow i hi)
      simp only [id]
      omega)
  generalize hw₃ : ({ w₂.modifyNode finalizedNode fun n => { n with parent := none } with
    treeRootNode := some finalizedNode } : World) = w₃
  have hprune : pruneToRoot finalizedNode parent w = .ok () w₃ := by
    have hroot₁ : w₁.treeRootNode = some root := by rw [← hw₁]; exact hroot
    have hnext₁ : w₁.next = w.next := by rw [← hw₁]
    rw [pruneToRoot, modify_bind_run, hw₁, get_bind_run, hroot₁, deref, pure_bind_run,
      get_bind_run, hnext₁, bind_of_ok hrun, modify_run, hw₃]
  have hshrinks := pruneToRoot_shrinks finalizedNode parent w
  rw [after_of_ok hprune] at hshrinks
  have hheap₁ : w₁.heap = w.heap := by rw [← hw₁]
  have hheap : ∀ i, w₃.heap i = if i = finalizedNode then
      { w₂.heap finalizedNode with parent := none } else w₂.heap i := by
    intro i
    rw [← hw₃]
    dsimp only
    rw [World.modifyNode_heap]
  have hchildren : ∀ i, i ∉ w.outside finalizedNode root →
      (w₃.heap i).children = (w.heap i).children := by
    intro i hi
    rw [hheap]
    split_ifs with hf
    · rw [hcuts.finalized, hf, hheap₁]
    · rw [hcuts.other i fun h => hi ⟨h, hf⟩, hheap₁]
  refine ⟨w₃, hprune, ?_, hchildren _ fun h => h.2 rfl⟩
  refine h.restrict hshrinks.sameShape (S := w.outside finalizedNode root) ?_ ?_ ?_ ?_ ?_
  · refine live_iff_of_erased hshrinks.sameShape.root (fun i => h.live_of_outside hroot)
      (fun i hi => ?_) fun r hr => ?_
    · rw [← hheap₁, ← hw₃]
      exact hcuts.gone i hi.1 hi.2
    · have hkept := hcuts.kept r fun i hi hf => by rw [hheap₁]; exact hr i ⟨hi, hf⟩
      rw [← hw₃]
      refine hkept.trans ?_
      rw [← hw₁]
  · intro p hp hout
    rw [hchildren p hout]
    refine ⟨h.nodup p hp, fun c => ⟨fun hc => ⟨hc, fun hcout => hout ?_⟩, And.left⟩⟩
    obtain ⟨hlc, hpc⟩ := h.children p hp c hc
    exact (h.outside_iff hroot hlc hpc hcout.2).1 hcout
  · intro t ht
    rw [← hw₃] at ht
    cases ht
    refine ⟨hlive, fun hout => hout.2 rfl, ?_⟩
    rw [hheap, if_pos rfl]
  · intro i hi hout
    by_cases hf : i = finalizedNode
    · exact .inl (by rw [← hw₃, hf])
    · rcases h.parent i hi with hr | ⟨p, hp, -, -⟩
      · cases hroot.symm.trans hr
        exact absurd ⟨self_mem_subtree _, hf⟩ hout
      · exact .inr ⟨p, hp, fun hpout => hout ((h.outside_iff hroot hi hp hf).2 hpout)⟩
  · intro i p hi hout hp hpout
    by_cases hf : i = finalizedNode
    · subst hf
      cases hparent.symm.trans hp
      exact absurd (h.parent_outside hroot hlive hp) hpout
    · rw [hheap, if_neg hf, hcuts.other i fun h => hout ⟨h, hf⟩, hheap₁]
      exact hp

theorem pruneIncompatible_run {checkpointMaxSlot : Nat}
    (h : ∀ c ∈ (w.heap finalizedNode).children, checkpointMaxSlot < (w.heap c).slot) :
    pruneIncompatible finalizedNode checkpointMaxSlot w = .ok () w := by
  unfold pruneIncompatible
  rw [get_bind_run]
  generalize (w.heap finalizedNode).children = children at h
  induction children with
  | nil => rfl
  | cons c children ih =>
    rw [foldlM_cons]
    refine (bind_of_ok (a := ()) (t := w) ?_).trans (ih fun d hd => h d (mem_cons_of_mem _ hd))
    rw [get_bind_run, if_neg (h c mem_cons_self).not_ge, pure_run]

/-- No child of the finalized node is incompatible with the checkpoint. -/
def Store.CleanlyFinalized (cfg : BeaconChainConfig) (s : Store) : Prop :=
  ∀ finalizedNode, s.nodeByRoot s.finalizedCheckpoint.root = some finalizedNode →
    ∃ start, epochStart cfg s.finalizedCheckpoint.epoch = some start ∧
      ((s.heap finalizedNode).slot = start ∨
        ∀ c ∈ (s.heap finalizedNode).children, start < (s.heap c).slot)

theorem prune_isTree (cfg : BeaconChainConfig) (h : IsTree w.toStore) (hctx : w.ctx = none)
    (hclean : w.CleanlyFinalized cfg) :
    (∃ e, prune cfg w = .error e w) ∨ ∃ w', prune cfg w = .ok () w' ∧ IsTree w'.toStore := by
  unfold prune
  rw [get_bind_run]
  cases hfinalized : w.nodeByRoot w.finalizedCheckpoint.root with
  | none => exact .inl ⟨_, rfl⟩
  | some finalizedNode =>
    dsimp only
    cases hparent : (w.heap finalizedNode).parent with
    | none => exact .inr ⟨w, rfl, h⟩
    | some parent =>
      have hlive := h.allocated.live hfinalized
      obtain ⟨w', hrun, htree, hchildren⟩ := pruneToRoot_isTree h hctx hlive hparent
      have hshrinks := pruneToRoot_shrinks finalizedNode parent w
      rw [after_of_ok hrun] at hshrinks
      obtain ⟨start, hstart, hcompatible⟩ := hclean finalizedNode hfinalized
      refine .inr ⟨w', ?_, htree⟩
      simp only [bind_of_ok hrun, hstart]
      split_ifs with hslot
      · rfl
      · refine pruneIncompatible_run fun c hc => ?_
        rw [hchildren] at hc
        rw [(hshrinks.node c).rest]
        exact hcompatible.resolve_left hslot c hc

end Prune

end LightChain.DoublyLinkedTree

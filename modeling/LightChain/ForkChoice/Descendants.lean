import LightChain.ForkChoice.TreeRun

/-!
# Weights and best descendants of a tree

`applyWeightChanges` and `updateBestDescendant` are traversals of the block tree. `Weighs` and
`Bests` give the weight and the best descendant of every node in terms of those of its children
after the traversal. In particular the best descendants of a tree are nodes of the tree, and so
is the head.
-/
namespace LightChain.DoublyLinkedTree
open Library Program Option

section Weighs

structure Weighs (kids : Nat → List Nat) (S : Set Nat) (w w' : World) : Prop where
  rest : w' = { w with heap := w'.heap }
  other : ∀ i ∉ S, w'.heap i = w.heap i
  weight : ∀ i ∈ S, w'.heap i = { w.heap i with
    weight := if (w.heap i).root = 0 then (w.heap i).weight else
      add64 (w.heap i).balance ((kids i).foldl (fun sum c => add64 sum (w'.heap c).weight) 0) }

variable {kids : Nat → List Nat} {w w' : World}

theorem Weighs.weightOnly {S : Set Nat} (h : Weighs kids S w w') (i : Nat) :
    WeightOnly (w.heap i) (w'.heap i) := by
  by_cases hi : i ∈ S
  · rw [WeightOnly, h.weight i hi]
  · rw [h.other i hi]
    exact refl _

theorem Weighs.sameTree {S : Set Nat} (h : Weighs kids S w w') : SameTree w.toStore w'.toStore :=
  ⟨by rw [h.rest], by rw [h.rest], by rw [h.rest],
    fun i => by rw [h.weightOnly i]; exact ⟨rfl, rfl, rfl, rfl⟩, by rw [h.rest]; exact id⟩

theorem foldl_weight_congr {children : List Nat} (h : ∀ c ∈ children, w'.heap c = w.heap c)
    (sum : Nat) :
    children.foldl (fun sum c => add64 sum (w'.heap c).weight) sum =
      children.foldl (fun sum c => add64 sum (w.heap c).weight) sum :=
  List.foldl_ext _ _ _ fun sum c hc => by rw [h c hc]

theorem weighs_footprint : Footprint kids (Weighs kids) where
  refl w := ⟨rfl, fun _ _ => rfl, fun _ h => h.elim⟩
  comp {S T u v w} hS hST huv hvw := by
    refine ⟨by rw [hvw.rest, huv.rest], fun i hi => ?_, ?_⟩
    · rw [hvw.other i fun h => hi (.inr h), huv.other i fun h => hi (.inl h)]
    · rintro i (hi | hi)
      · -- The children of the node are in the first set, too.
        have hsame : ∀ c ∈ kids i, w.heap c = v.heap c := fun c hc =>
          hvw.other c (Set.disjoint_left.1 hST (hS i hi c hc))
        have hsum := foldl_weight_congr hsame 0
        rw [hvw.other i (Set.disjoint_left.1 hST hi), huv.weight i hi, hsum]
      · rw [hvw.weight i hi, huv.other i (Set.disjoint_right.1 hST hi)]

theorem weighNode_weighs {w : World} (n : Nat) (h : ∀ c ∈ kids n, c ≠ n) :
    Weighs kids {n} w (if (w.heap n).root = 0 then w else w.modifyNode n fun node => { node with
      weight := add64 node.balance
        ((kids n).foldl (fun sum c => add64 sum (w.heap c).weight) 0) }) := by
  split_ifs with hroot
  · refine ⟨rfl, fun _ _ => rfl, ?_⟩
    rintro i rfl
    rw [if_pos hroot]
  · generalize hw' : w.modifyNode n _ = w'
    have hother : ∀ i, i ≠ n → w'.heap i = w.heap i := by
      intro i hi
      rw [← hw', World.modifyNode_heap, if_neg hi]
    refine ⟨by rw [← hw']; rfl, hother, ?_⟩
    rintro i rfl
    rw [if_neg hroot, foldl_weight_congr fun c hc => hother c (h c hc), ← hw',
      World.modifyNode_heap, if_pos rfl]

theorem applyWeightChanges_weighs (hforest : Forest kids id) {fuel n : Nat} {w : World}
    (hctx : w.ctx = none) (hkids : ∀ i ∈ subtree kids n, (w.heap i).children = kids i)
    (hfits : Fits kids id fuel n) :
    ∃ w', applyWeightChanges fuel n w = .ok () w' ∧ Weighs kids (subtree kids n) w w' := by
  induction fuel generalizing n w with
  | zero => exact absurd rfl hfits.ne_zero
  | succ fuel ih =>
    have hfp : Footprint kids (Weighs kids) := weighs_footprint
    obtain ⟨w₁, hrun, hw₁⟩ := foldlM_does hfp
      (f := fun childrenWeight child => do
        ctxErr
        applyWeightChanges fuel child
        return add64 childrenWeight ((← get).heap child).weight)
      (g := fun w sum c => add64 sum (w.heap c).weight) (s := w) (hforest.pairwise_disjoint n)
      (fun {T t u sum c} _ hdisjoint hdoes => by
        rw [hdoes.other c (Set.disjoint_left.1 hdisjoint (self_mem_subtree c))])
      (fun {S t} sum c hc hdisjoint hdoes => by
        have htctx : t.ctx = none := by rw [hdoes.rest]; exact hctx
        obtain ⟨t', hrun, ht'⟩ := ih htctx (fun i hi => by
          rw [hdoes.other i (Set.disjoint_right.1 hdisjoint hi)]
          exact hkids i (.head hc hi)) (hfits.child hforest hc)
        refine ⟨t', ?_, ht'⟩
        rw [bind_of_ok (ctxErr_run htctx), bind_of_ok hrun, get_bind_run, pure_run])
      0
    rw [applyWeightChanges, get_bind_run, hkids n (self_mem_subtree n), bind_of_ok hrun,
      get_bind_run, subtree_eq]
    have hlast := weighNode_weighs (w := w₁) n fun c hc => (hforest.lt hc).ne'
    have hcomp := hfp.comp (closed_subtrees _) (Set.disjoint_singleton_right.2
      (hforest.not_mem_subtrees n)) hw₁ hlast
    split_ifs at hcomp ⊢
    · exact ⟨_, rfl, hcomp⟩
    · exact ⟨_, rfl, hcomp⟩

end Weighs

section Bests

variable {justifiedEpoch currentEpoch : Nat} {kids : Nat → List Nat}

structure Bests (justifiedEpoch currentEpoch : Nat) (kids : Nat → List Nat) (S : Set Nat)
    (w w' : World) : Prop where
  rest : w' = { w with heap := w'.heap }
  other : ∀ i ∉ S, w'.heap i = w.heap i
  best : ∀ i ∈ S, w'.heap i = { w.heap i with
    bestDescendant := w'.descendantOf
      ((kids i).foldl (w'.betterChild justifiedEpoch currentEpoch) none) }

variable {S : Set Nat} {w w' : World}

theorem Bests.bestOnly (h : Bests justifiedEpoch currentEpoch kids S w w') (i : Nat) :
    BestOnly (w.heap i) (w'.heap i) := by
  by_cases hi : i ∈ S
  · rw [BestOnly, h.best i hi]
  · rw [h.other i hi]
    exact refl _

theorem Bests.sameTree (h : Bests justifiedEpoch currentEpoch kids S w w') :
    SameTree w.toStore w'.toStore :=
  ⟨by rw [h.rest], by rw [h.rest], by rw [h.rest],
    fun i => by rw [h.bestOnly i]; exact ⟨rfl, rfl, rfl, rfl⟩, by rw [h.rest]; exact id⟩

variable {s s' : Store}

/-- A comparison reads only the best descendant of the child among what the traversal writes. -/
theorem betterChild_congr (hs : ∀ i, BestOnly (s.heap i) (s'.heap i)) (best : Option (Nat × Nat))
    {child : Nat} (hchild : (s'.heap child).bestDescendant = (s.heap child).bestDescendant) :
    s'.betterChild justifiedEpoch currentEpoch best child =
      s.betterChild justifiedEpoch currentEpoch best child := by
  have hroot : ∀ i, (s'.heap i).root = (s.heap i).root := fun i => by rw [hs i]
  have hweight : ∀ i, (s'.heap i).weight = (s.heap i).weight := fun i => by rw [hs i]
  have hviable : ∀ i, (s'.heap i).viableForHead justifiedEpoch currentEpoch =
      (s.heap i).viableForHead justifiedEpoch currentEpoch := by
    intro i
    rw [hs i]
    rfl
  have hleads : s'.leadsToViableHead child justifiedEpoch currentEpoch =
      s.leadsToViableHead child justifiedEpoch currentEpoch := by
    unfold Store.leadsToViableHead
    simp only [hchild, hviable]
  unfold Store.betterChild
  simp only [hleads, hweight, hroot]

variable {best : Option (Nat × Nat)}

theorem foldl_betterChild_mem {s : Store} {children : List Nat} {c v : Nat}
    (h : children.foldl (s.betterChild justifiedEpoch currentEpoch) best = some (c, v)) :
    best = some (c, v) ∨ (c ∈ children ∧ v = (s.heap c).weight) := by
  induction children generalizing best with
  | nil => exact .inl h
  | cons d children ih =>
    rcases ih h with hbest | ⟨hmem, hv⟩
    · unfold Store.betterChild at hbest
      split_ifs at hbest
      · cases best with
        | none =>
          cases hbest
          exact .inr ⟨List.mem_cons_self, rfl⟩
        | some b => grind
      · exact .inl hbest
    · exact .inr ⟨List.mem_cons_of_mem _ hmem, hv⟩

theorem descendantOf_congr
    (h : ∀ c v, best = some (c, v) → (s'.heap c).bestDescendant = (s.heap c).bestDescendant) :
    s'.descendantOf best = s.descendantOf best := by
  unfold Store.descendantOf
  cases best with
  | none => rfl
  | some best => simp only [h best.1 best.2 rfl]

theorem bestOf_congr (justifiedEpoch currentEpoch : Nat) (hs : ∀ i, BestOnly (s.heap i) (s'.heap i))
    {children : List Nat}
    (h : ∀ c ∈ children, (s'.heap c).bestDescendant = (s.heap c).bestDescendant) :
    s'.descendantOf (children.foldl (s'.betterChild justifiedEpoch currentEpoch) none) =
      s.descendantOf (children.foldl (s.betterChild justifiedEpoch currentEpoch) none) := by
  rw [List.foldl_ext _ _ _ fun best c hc => betterChild_congr hs best (h c hc)]
  refine descendantOf_congr fun c v hbest => h c ?_
  rcases foldl_betterChild_mem hbest with hnone | hmem
  · cases hnone
  · exact hmem.1

theorem bests_footprint (justifiedEpoch currentEpoch : Nat) (kids : Nat → List Nat) :
    Footprint kids (Bests justifiedEpoch currentEpoch kids) where
  refl w := ⟨rfl, fun _ _ => rfl, fun _ h => h.elim⟩
  comp {S T u v w} hS hST huv hvw := by
    refine ⟨by rw [hvw.rest, huv.rest], fun i hi => ?_, ?_⟩
    · rw [hvw.other i fun h => hi (.inr h), huv.other i fun h => hi (.inl h)]
    · have hsame : ∀ i ∈ S, ∀ c ∈ kids i, (w.heap c).bestDescendant = (v.heap c).bestDescendant :=
        fun i hi c hc => by rw [hvw.other c (Set.disjoint_left.1 hST (hS i hi c hc))]
      rintro i (hi | hi)
      · have hbest := bestOf_congr justifiedEpoch currentEpoch hvw.bestOnly (hsame i hi)
        rw [hvw.other i (Set.disjoint_left.1 hST hi), huv.best i hi, hbest]
      · rw [hvw.best i hi, huv.other i (Set.disjoint_right.1 hST hi)]

theorem bestNode_bests {w : World} (n : Nat) (h : ∀ c ∈ kids n, c ≠ n) :
    Bests justifiedEpoch currentEpoch kids {n} w (w.modifyNode n fun node => { node with
      bestDescendant := w.descendantOf
        ((kids n).foldl (w.betterChild justifiedEpoch currentEpoch) none) }) := by
  generalize hw' : w.modifyNode n _ = w'
  have hother : ∀ i, i ≠ n → w'.heap i = w.heap i := by
    intro i hi
    rw [← hw', World.modifyNode_heap, if_neg hi]
  have honly : ∀ i, BestOnly (w.heap i) (w'.heap i) := by
    intro i
    rw [← hw', World.modifyNode_heap]
    split_ifs with hi
    · rw [hi, BestOnly]
    · exact refl _
  refine ⟨by rw [← hw']; rfl, hother, ?_⟩
  rintro i rfl
  rw [bestOf_congr justifiedEpoch currentEpoch honly fun c hc => by rw [hother c (h c hc)], ← hw',
    World.modifyNode_heap, if_pos rfl]

theorem updateBestDescendant_bests (justifiedEpoch currentEpoch : Nat)
    (hforest : Forest kids id) {fuel n : Nat} {w : World}
    (hctx : w.ctx = none) (hkids : ∀ i ∈ subtree kids n, (w.heap i).children = kids i)
    (hfits : Fits kids id fuel n) :
    ∃ w', updateBestDescendant justifiedEpoch currentEpoch fuel n w = .ok () w' ∧
      Bests justifiedEpoch currentEpoch kids (subtree kids n) w w' := by
  induction fuel generalizing n w with
  | zero => exact absurd rfl hfits.ne_zero
  | succ fuel ih =>
    have hfp := bests_footprint justifiedEpoch currentEpoch kids
    obtain ⟨w₁, hrun, hw₁⟩ := foldlM_does hfp
      (f := fun best child => do
        updateBestDescendant justifiedEpoch currentEpoch fuel child
        return (← get).betterChild justifiedEpoch currentEpoch best child)
      (g := fun w best c => w.betterChild justifiedEpoch currentEpoch best c) (s := w)
      (hforest.pairwise_disjoint n)
      (fun {T t u best c} _ hdisjoint hdoes => betterChild_congr hdoes.bestOnly best (by
        rw [hdoes.other c (Set.disjoint_left.1 hdisjoint (self_mem_subtree c))]))
      (fun {S t} best c hc hdisjoint hdoes => by
        have htctx : t.ctx = none := by rw [hdoes.rest]; exact hctx
        obtain ⟨t', hrun, ht'⟩ := ih htctx (fun i hi => by
          rw [hdoes.other i (Set.disjoint_right.1 hdisjoint hi)]
          exact hkids i (.head hc hi)) (hfits.child hforest hc)
        refine ⟨t', ?_, ht'⟩
        rw [bind_of_ok hrun, get_bind_run, pure_run])
      none
    rw [updateBestDescendant, bind_of_ok (ctxErr_run hctx), get_bind_run,
      hkids n (self_mem_subtree n), bind_of_ok hrun, get_bind_run, subtree_eq]
    refine ⟨_, rfl, hfp.comp (closed_subtrees _) (Set.disjoint_singleton_right.2
      (hforest.not_mem_subtrees n)) hw₁ (bestNode_bests n fun c hc => (hforest.lt hc).ne')⟩

/-- The best descendants end the chains of best children. -/
theorem follows_bestDescendant {s : Store} (hS : Closed kids S)
    (hbest : ∀ i ∈ S, (s.heap i).bestDescendant =
      s.descendantOf ((kids i).foldl (s.betterChild justifiedEpoch currentEpoch) none)) :
    Follows kids S
      (fun p => ((kids p).foldl (s.betterChild justifiedEpoch currentEpoch) none).map Prod.fst)
      fun p => (s.heap p).bestDescendant.getD p where
  closed := hS
  mem {p c} _ hc := by
    obtain ⟨⟨_, v⟩, hfold, rfl⟩ := map_eq_some_iff.1 hc
    rcases foldl_betterChild_mem hfold with hnone | hmem
    · cases hnone
    · exact hmem.1
  stop {p} hp hc := by
    rw [hbest p hp, map_eq_none_iff.1 hc, Store.descendantOf, getD_none]
  next {p c} hp hc := by
    obtain ⟨⟨_, v⟩, hfold, rfl⟩ := map_eq_some_iff.1 hc
    rw [hbest p hp, hfold, Store.descendantOf, getD_some]

theorem Bests.mem_subtree {bound : Nat} (h : Bests justifiedEpoch currentEpoch kids S w w')
    (hforest : Forest kids id) (hS : Closed kids S) (hbound : ∀ i ∈ S, i < bound) {i d : Nat}
    (hi : i ∈ S) (hd : (w'.heap i).bestDescendant = some d) : d ∈ subtree kids i := by
  have hfollows := follows_bestDescendant (s := w'.toStore) hS fun i hi =>
    congrArg Node.bestDescendant (h.best i hi)
  have htip := hfollows.tip_mem hforest hbound hi
  rwa [hd, getD_some] at htip

end Bests

section Cancellation

/-- The context is never cancelled. -/
def World.uncancelled (w : World) : World := { w with ctx := none }

theorem ctxErr_respects : Respects World.uncancelled ctxErr := by
  intro w a w' hrun
  unfold ctxErr at hrun
  split at hrun <;> cases hrun <;> rfl

theorem applyWeightChanges_respects (fuel n : Nat) :
    Respects World.uncancelled (applyWeightChanges fuel n) := by
  induction fuel generalizing n with
  | zero => exact .throw _
  | succ fuel ih =>
    refine .get (fun _ => rfl) fun w => ?_
    refine Respects.bind (.foldlM (fun _ child _ => ?_) _) fun _ => .get (fun _ => rfl) fun w' => ?_
    · exact ctxErr_respects.bind fun _ => (ih child).bind fun _ =>
        .get (fun _ => rfl) fun _ => .pure _
    · dsimp only
      split_ifs
      · exact .pure _
      · exact .modify fun _ => rfl

theorem updateBestDescendant_respects (justifiedEpoch currentEpoch fuel n : Nat) :
    Respects World.uncancelled (updateBestDescendant justifiedEpoch currentEpoch fuel n) := by
  induction fuel generalizing n with
  | zero => exact .throw _
  | succ fuel ih =>
    refine ctxErr_respects.bind fun _ => .get (fun _ => rfl) fun w => ?_
    refine Respects.bind (.foldlM (fun _ child _ => ?_) _) fun _ => .get (fun _ => rfl) fun w' => ?_
    · exact (ih child).bind fun _ => .get (fun _ => rfl) fun _ => .pure _
    · exact .modify fun _ => rfl

theorem deref_respects (p : Option Nat) : Respects World.uncancelled (deref p) := by
  cases p with
  | none => exact .throw _
  | some i => exact .pure i

theorem head_respects (currentEpoch : Nat) : Respects World.uncancelled (head currentEpoch) := by
  refine ctxErr_respects.bind fun _ => Respects.bind ?_ fun n => .get (fun _ => rfl) fun w => ?_
  · refine .get (fun _ => rfl) fun w => ?_
    cases w.nodeByRoot w.justifiedCheckpoint.root with
    | some n => exact .pure n
    | none =>
      dsimp only
      split_ifs
      · exact deref_respects _
      · exact .throw _
  · dsimp only
    split_ifs
    · exact Respects.bind (.modify fun _ => rfl) fun _ => .pure _
    · exact Respects.bind (.modify fun _ => rfl) fun _ => .throw _

theorem headOfBalances_respects (currentEpoch headEpoch : Nat) :
    Respects World.uncancelled (headOfBalances currentEpoch headEpoch) := by
  refine .get (fun _ => rfl) fun w => (deref_respects _).bind fun root => ?_
  refine (applyWeightChanges_respects _ _).mapError.bind fun _ => ?_
  exact (updateBestDescendant_respects _ _ _ _).mapError.bind fun _ => head_respects _

end Cancellation

section Head

variable {w : World}

theorem headOfBalances_run (h : IsTree w.toStore) (hctx : w.ctx = none) {root : Nat}
    (hroot : w.treeRootNode = some root) (currentEpoch headEpoch : Nat) :
    ∃ w₁ w₂, Weighs w.kids {i | w.Live i} w w₁ ∧
      Bests w.justifiedCheckpoint.epoch currentEpoch w.kids {i | w.Live i} w₁ w₂ ∧
      headOfBalances currentEpoch headEpoch w = head headEpoch w₂ := by
  have hlive := (h.root root hroot).1
  have hset : subtree w.kids root = {i | w.Live i} := by
    ext i
    exact ⟨fun hi => h.live_of_mem_subtree hlive hi, fun hi => h.mem_subtree_root hroot hi⟩
  have hfits : Fits w.kids id w.next root := by
    intro i hi
    have := h.allocated.lt_of_live (h.live_of_mem_subtree hlive hi)
    simp only [id]
    omega
  have hkids : ∀ i ∈ subtree w.kids root, (w.heap i).children = w.kids i := fun i hi =>
    (kids_of_live (h.live_of_mem_subtree hlive hi)).symm
  obtain ⟨w₁, hrun₁, hw₁⟩ := applyWeightChanges_weighs h.forest hctx hkids hfits
  obtain ⟨w₂, hrun₂, hw₂⟩ := updateBestDescendant_bests w.justifiedCheckpoint.epoch
    currentEpoch h.forest (w := w₁) (by rw [hw₁.rest]; exact hctx) (fun i hi => by
      rw [hw₁.weight i hi]
      exact hkids i hi) hfits
  rw [← hset]
  refine ⟨w₁, w₂, hw₁, hw₂, ?_⟩
  rw [headOfBalances, get_bind_run, hroot, deref, pure_bind_run,
    bind_of_ok (mapError_of_ok hrun₁), bind_of_ok (mapError_of_ok hrun₂)]

theorem justifiedNode_eq_ok {w' : World} {n : Nat} (hrun : justifiedNode w = .ok n w') :
    w' = w ∧ (w.nodeByRoot w.justifiedCheckpoint.root = some n ∨
      (w.nodeByRoot w.justifiedCheckpoint.root = none ∧
        w.justifiedCheckpoint.epoch = genesisEpoch ∧ w.treeRootNode = some n)) := by
  unfold justifiedNode at hrun
  rw [get_bind_run] at hrun
  cases hj : w.nodeByRoot w.justifiedCheckpoint.root with
  | some m =>
    rw [hj] at hrun
    cases hrun
    exact ⟨rfl, .inl rfl⟩
  | none =>
    rw [hj] at hrun
    dsimp only at hrun
    split_ifs at hrun with hepoch
    · cases hroot : w.treeRootNode with
      | none =>
        rw [hroot] at hrun
        cases hrun
      | some m =>
        rw [hroot] at hrun
        cases hrun
        exact ⟨rfl, .inr ⟨rfl, hepoch, rfl⟩⟩
    · cases hrun

theorem head_eq_ok {w' : World} {currentEpoch r : Nat} (hctx : w.ctx = none)
    (hrun : head currentEpoch w = .ok r w') :
    ∃ n, justifiedNode w = .ok n w ∧
      r = (w.heap ((w.heap n).bestDescendant.getD n)).root ∧
      (w.heap ((w.heap n).bestDescendant.getD n)).viableForHead w.justifiedCheckpoint.epoch
        currentEpoch = true ∧
      w' = { w with
        allTipsAreInvalid := false
        headNode := some ((w.heap n).bestDescendant.getD n) } := by
  unfold head at hrun
  rw [bind_of_ok (ctxErr_run hctx)] at hrun
  obtain ⟨n, w₁, hn, hrest⟩ := bind_eq_ok.1 hrun
  obtain ⟨hw₁, -⟩ := justifiedNode_eq_ok hn
  subst hw₁
  rw [get_bind_run] at hrest
  split_ifs at hrest with hviable
  · cases hrest
    exact ⟨n, hn, rfl, hviable, rfl⟩
  · cases hrest

theorem IsTree.live_justifiedNode (h : IsTree w.toStore) {n : Nat}
    (hn : justifiedNode w = .ok n w) : w.Live n := by
  rcases (justifiedNode_eq_ok hn).2 with hj | ⟨-, -, hroot⟩
  · exact h.allocated.live hj
  · exact (h.root n hroot).1

def EndsInTree (w : World) (currentEpoch headEpoch : Nat) : Prop :=
  (∀ i, w.Live i → ∀ d,
    ((after (headOfBalances currentEpoch headEpoch) w).heap i).bestDescendant = some d →
      w.Live d) ∧
    ∀ r w', headOfBalances currentEpoch headEpoch w = .ok r w' → ∃ i, w.nodeByRoot r = some i

theorem IsTree.headOfBalances (h : IsTree w.toStore) (hctx : w.ctx = none)
    (currentEpoch headEpoch : Nat) : EndsInTree w currentEpoch headEpoch := by
  cases hroot : w.treeRootNode with
  | none =>
    have hnone : ∀ i, ¬ w.Live i := fun i hi => by
      have := (h.allocated.rooted _ i hi).1
      simp [hroot] at this
    refine ⟨fun i hi => absurd hi (hnone i), fun r w' hrun => ?_⟩
    rw [DoublyLinkedTree.headOfBalances, get_bind_run, hroot, deref, throw_bind_run] at hrun
    cases hrun
  | some root =>
    obtain ⟨w₁, w₂, hw₁, hw₂, hrun⟩ := headOfBalances_run h hctx hroot currentEpoch headEpoch
    have hbelow : ∀ i, w.Live i → ∀ d, (w₂.heap i).bestDescendant = some d → w.Live d := by
      intro i hi d hd
      exact h.live_of_mem_subtree hi (hw₂.mem_subtree h.forest h.closed_live
        (fun i hi => h.allocated.lt_of_live hi) hi hd)
    have hsame := hw₁.sameTree.trans hw₂.sameTree
    refine ⟨fun i hi d hd => ?_, fun r w' hrun' => ?_⟩
    · rw [after, hrun] at hd
      change ((after (head headEpoch) w₂).heap i).bestDescendant = some d at hd
      rw [head_headOnly headEpoch w₂] at hd
      exact hbelow i hi d hd
    · rw [hrun] at hrun'
      obtain ⟨n, hn, hr, -⟩ := head_eq_ok (by rw [hw₂.rest, hw₁.rest]; exact hctx) hrun'
      have hnlive := (hsame.live_iff n).1 ((h.of_sameTree hsame).live_justifiedNode hn)
      have hlive : w.Live ((w₂.heap n).bestDescendant.getD n) := by
        cases hbest : (w₂.heap n).bestDescendant with
        | none => exact hnlive
        | some d => exact hbelow n hnlive d hbest
      refine ⟨(w₂.heap n).bestDescendant.getD n, ?_⟩
      rw [hr, (hsame.node _).1]
      exact hlive

/-- The same for a call that succeeds although its context may be cancelled later. -/
theorem IsTree.headOfBalances_of_complete (h : IsTree w.toStore) {currentEpoch headEpoch : Nat}
    (hcomplete : w.ctx = none ∨
      ∃ r w', DoublyLinkedTree.headOfBalances currentEpoch headEpoch w = .ok r w') :
    EndsInTree w currentEpoch headEpoch := by
  rcases hcomplete with hctx | ⟨r, w', hrun⟩
  · exact h.headOfBalances hctx currentEpoch headEpoch
  · have htree : IsTree w.uncancelled.toStore := h
    have hrun' := headOfBalances_respects currentEpoch headEpoch w r w' hrun
    have hhead := htree.headOfBalances rfl currentEpoch headEpoch
    unfold EndsInTree at hhead ⊢
    rw [after_of_ok hrun'] at hhead
    rw [after_of_ok hrun]
    refine ⟨hhead.1, fun r₂ w₂ hrun₂ => ?_⟩
    cases hrun.symm.trans hrun₂
    exact hhead.2 r w'.uncancelled hrun'

end Head

section Run

variable (cfg : BeaconChainConfig)

/-- The nodes of the map are the nodes that the children lead to from the root, each under its
own root, and a node other than the root is a child of its parent, once, and of no other. -/
structure Represents (s : Store) : Prop where
  reachable : ∀ i, (∃ r, s.nodeByRoot r = some i) ↔
    ∃ t, s.treeRootNode = some t ∧ i ∈ subtree (fun p => (s.heap p).children) t
  keyed : ∀ r i, s.nodeByRoot r = some i → (s.heap i).root = r
  once : ∀ r i, s.nodeByRoot r = some i → s.treeRootNode ≠ some i →
    ∃ p, (∃ q, s.nodeByRoot q = some p) ∧ (s.heap i).parent = some p ∧
      (s.heap p).children.count i = 1
  nowhere : ∀ r i q p, s.nodeByRoot r = some i → s.nodeByRoot q = some p →
    i ∈ (s.heap p).children → s.treeRootNode ≠ some i ∧ (s.heap i).parent = some p

theorem IsTree.represents {s : Store} (h : IsTree s) : Represents s where
  reachable i := by
    constructor
    · rintro ⟨r, hi⟩
      obtain ⟨t, ht⟩ := isSome_iff_exists.1 (h.allocated.rooted r i hi).1
      refine ⟨t, ht, ?_⟩
      exact subtree_subset (fun p hp c hc => hp.tail (mem_kids.1 hc).2) (self_mem_subtree t)
        (h.mem_subtree_root ht (h.allocated.live hi))
    · rintro ⟨t, ht, hi⟩
      have hclosed : Closed (fun p => (s.heap p).children) {i | s.Live i} := fun p hp c hc =>
        (h.children p hp c hc).1
      exact ⟨_, subtree_subset hclosed (h.root t ht).1 hi⟩
  keyed r i hi := (h.allocated.keyed r i hi).1
  once r i hi hroot := by
    have hlive := h.allocated.live hi
    obtain ⟨p, hp, hplive, hmem⟩ := (h.parent i hlive).resolve_left hroot
    exact ⟨p, ⟨_, hplive⟩, hp, List.count_eq_one_of_mem (h.nodup p hplive) hmem⟩
  nowhere r i q p _ hp hmem := by
    have hparent := (h.children p (h.allocated.live hp) i hmem).2
    refine ⟨fun hroot => ?_, hparent⟩
    cases hparent.symm.trans (h.root i hroot).2

theorem IsTree.head_of_counts {w : World} (h : IsTree w.toStore) (currentEpoch headEpoch : Nat) :
    ∃ w₀, Counts w w₀ ∧ IsTree w₀.toStore ∧
      Head cfg currentEpoch headEpoch w = DoublyLinkedTree.headOfBalances currentEpoch headEpoch w₀ := by
  have hcounts : Counts w ((w.updateBalances).applyProposerBoostScore cfg) :=
    IsTrans.trans _ _ _ (updateBalances_counts w) (applyProposerBoostScore_counts cfg _)
  refine ⟨_, hcounts, h.of_sameTree hcounts.sameTree, ?_⟩
  rw [Head, modify_bind_run, modify_bind_run]

/-- A call of `Head` that succeeds or is not cancelled. -/
def Completes (f : ForkChoice) (c : Call) (currentEpoch headEpoch : Nat) : Prop :=
  c.operation = .Head currentEpoch headEpoch ∧
    (c.ctx = none ∨ ∃ r w', Head cfg currentEpoch headEpoch (c.start f) = .ok r w')

/-- Along a run of tidy calls the map and the children describe one tree, and after `Head` the
best descendants and the head are nodes of it. -/
theorem represents_of_tidy (calls : List Call) (h : Meets cfg (Tidy cfg) ForkChoice.new calls) :
    Represents (run cfg calls).toStore ∧
      ∀ c currentEpoch headEpoch, Completes cfg (run cfg calls) c currentEpoch headEpoch →
        (∀ r i, (run cfg (calls ++ [c])).nodeByRoot r = some i →
          ∀ d, ((run cfg (calls ++ [c])).heap i).bestDescendant = some d →
            ∃ q, (run cfg (calls ++ [c])).nodeByRoot q = some d) ∧
        ∀ r w', Head cfg currentEpoch headEpoch (c.start (run cfg calls)) = .ok r w' →
          ∃ i, (run cfg (calls ++ [c])).nodeByRoot r = some i := by
  have htree := isTree_run cfg h
  refine ⟨htree.represents, ?_⟩
  rintro ⟨operation, ctx, balancesByRoot⟩ currentEpoch headEpoch ⟨hop, hcomplete⟩
  dsimp only at hop hcomplete
  subst hop
  rw [run_concat]
  generalize run cfg calls = f at htree hcomplete ⊢
  generalize hw : Call.start ⟨.Head currentEpoch headEpoch, ctx, balancesByRoot⟩ f = w at hcomplete ⊢
  obtain ⟨w₀, hcounts, htree₀, hhead⟩ := IsTree.head_of_counts cfg (w := w) (by
    rw [← hw]
    exact htree) currentEpoch headEpoch
  have hstep : step cfg f ⟨.Head currentEpoch headEpoch, ctx, balancesByRoot⟩ =
      (after (headOfBalances currentEpoch headEpoch) w₀).toForkChoice := by
    rw [step, Operation.method, after_bind_pure, hw, after, hhead, after]
  have hsame := (headOfBalances_cosmetic currentEpoch headEpoch w₀).sameTree
  have hctx₀ : ctx = none → w₀.ctx = none := by
    intro hctx
    rw [hcounts.rest, ← hw]
    exact hctx
  rw [hhead] at hcomplete
  obtain ⟨hbest, hroot⟩ := htree₀.headOfBalances_of_complete (hcomplete.imp_left hctx₀)
  rw [hstep, hhead, hsame.map]
  refine ⟨fun r i hi d hd => ⟨_, hbest i (htree₀.allocated.live hi) d hd⟩, hroot⟩

/-- A chain whose second block is finalized by the fourth one. -/
def finalizingChain : List Call :=
  [.insertTimely ⟨1, 0, 0, some 0⟩ ⟨0, 0⟩ ⟨0, 0⟩ ⟨0, 0⟩ ⟨0, 0⟩,
    .insertTimely ⟨2, 32, 1, some 0⟩ ⟨0, 0⟩ ⟨0, 0⟩ ⟨0, 0⟩ ⟨0, 0⟩,
    .insertTimely ⟨3, 64, 2, some 0⟩ ⟨0, 0⟩ ⟨0, 0⟩ ⟨0, 0⟩ ⟨0, 0⟩,
    .insertTimely ⟨4, 100, 3, some 0⟩ ⟨2, 3⟩ ⟨1, 2⟩ ⟨2, 3⟩ ⟨1, 2⟩]

theorem represents_finalizingChain :
    Represents (run {} finalizingChain).toStore ∧
      (run {} finalizingChain).treeRootNode = some 1 ∧
      (run {} finalizingChain).nodeByRoot 1 = none := by
  refine ⟨(represents_of_tidy {} finalizingChain ?_).1, by decide +kernel, by decide +kernel⟩
  refine ⟨tidy_insertTimely, tidy_insertTimely, tidy_insertTimely, ⟨rfl, ?_⟩, trivial⟩
  have hroot : (run {} (finalizingChain.take 3)).nodeByRoot 2 = some 1 := by decide +kernel
  have hslot : ((run {} (finalizingChain.take 3)).heap 1).slot = 32 := by decide +kernel
  have hcompatible : (run {} (finalizingChain.take 3)).Compatible {} [⟨4, 100, 3, some 0⟩] ⟨1, 2⟩ := by
    refine ⟨32, by decide, ?_⟩
    rintro slot childSlot (⟨i, hi, rfl⟩ | ⟨b, hb, hb', -⟩) -
    · cases hroot.symm.trans hi
      exact .inl hslot
    · cases List.mem_singleton.1 hb
      cases hb'
  rintro fc (⟨⟨⟩⟩ | ⟨uj, ⟨⟩⟩) -
  all_goals exact hcompatible

/-- The second block is finalized for epoch 1, whose first slot is 32. Its child at slot 31 is
incompatible with the checkpoint, its child at slot 40 is not. -/
def incompatibleChild : List Call :=
  [.insertTimely ⟨1, 0, 0, some 0⟩ ⟨0, 0⟩ ⟨0, 0⟩ ⟨0, 0⟩ ⟨0, 0⟩,
    .insertTimely ⟨2, 30, 1, some 0⟩ ⟨0, 0⟩ ⟨0, 0⟩ ⟨0, 0⟩ ⟨0, 0⟩,
    .insertTimely ⟨3, 31, 2, some 0⟩ ⟨0, 0⟩ ⟨0, 0⟩ ⟨0, 0⟩ ⟨0, 0⟩,
    .insertTimely ⟨4, 40, 2, some 0⟩ ⟨0, 0⟩ ⟨0, 0⟩ ⟨0, 0⟩ ⟨0, 0⟩,
    .insertTimely ⟨5, 100, 4, some 0⟩ ⟨2, 4⟩ ⟨1, 2⟩ ⟨2, 4⟩ ⟨1, 2⟩]

/-- The third block is pruned from the map, but it stays a child of the finalized block. -/
theorem incompatibleChild_stays :
    (run {} incompatibleChild).treeRootNode = some 1 ∧
      ((run {} incompatibleChild).heap 1).children = [2, 3] ∧
      ((run {} incompatibleChild).heap 2).root = 3 ∧
      (run {} incompatibleChild).nodeByRoot 3 = none ∧
      ¬ Represents (run {} incompatibleChild).toStore := by
  have hroot : (run {} incompatibleChild).treeRootNode = some 1 := by decide +kernel
  have hchildren : ((run {} incompatibleChild).heap 1).children = [2, 3] := by decide +kernel
  have hthree : ((run {} incompatibleChild).heap 2).root = 3 := by decide +kernel
  have hnone : (run {} incompatibleChild).nodeByRoot 3 = none := by decide +kernel
  refine ⟨hroot, hchildren, hthree, hnone, fun h => ?_⟩
  have hmem : 2 ∈ ((run {} incompatibleChild).heap 1).children := by
    rw [hchildren]
    exact List.mem_cons_self
  obtain ⟨r, hr⟩ := (h.reachable 2).2 ⟨1, hroot, .single hmem⟩
  cases (h.keyed r 2 hr).symm.trans hthree
  cases hnone.symm.trans hr

end Run

end LightChain.DoublyLinkedTree

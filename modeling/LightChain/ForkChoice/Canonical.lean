import LightChain.ForkChoice.Descendants
import LightChain.ForkChoice.Targets

/-!
# The canonical chain

`IsCanonical` accepts a block whose best descendant is the head. The head is looked for from the
justified block on, the best descendants are computed from the root of the tree: the two agree on
the blocks above the justified one exactly when at each of them the branch of the justified block
is the best.
-/
namespace LightChain.DoublyLinkedTree
open Library Program

section BestChild

variable {s : Store} {justifiedEpoch currentEpoch : Nat}

/-- Of two children that lead to viable heads, `c` is preferred to `d`. -/
def Store.Outweighs (s : Store) (c d : Nat) : Prop :=
  (s.heap d).weight < (s.heap c).weight ∨
    (s.heap d).weight = (s.heap c).weight ∧ (s.heap d).root < (s.heap c).root

/-- Among the children that lead to viable heads, `c` is the best. -/
def Store.BestAmong (s : Store) (justifiedEpoch currentEpoch : Nat) (children : List Nat)
    (c : Nat) : Prop :=
  c ∈ children ∧ s.leadsToViableHead c justifiedEpoch currentEpoch = true ∧
    ∀ d ∈ children, s.leadsToViableHead d justifiedEpoch currentEpoch = true →
      d = c ∨ s.Outweighs c d

def Store.IsBest (s : Store) (justifiedEpoch currentEpoch : Nat) (children : List Nat) :
    Option (Nat × Nat) → Prop
  | none => ∀ d ∈ children, s.leadsToViableHead d justifiedEpoch currentEpoch = false
  | some (c, v) => v = (s.heap c).weight ∧ s.BestAmong justifiedEpoch currentEpoch children c

variable {children : List Nat}

theorem betterChild_isBest {best : Option (Nat × Nat)} {d : Nat}
    (hroots : ∀ c ∈ children, (s.heap c).root = (s.heap d).root → c = d)
    (h : s.IsBest justifiedEpoch currentEpoch children best) :
    s.IsBest justifiedEpoch currentEpoch (children ++ [d])
      (s.betterChild justifiedEpoch currentEpoch best d) := by
  have hmem : ∀ e, e ∈ children ++ [d] ↔ e ∈ children ∨ e = d := by simp
  unfold Store.betterChild
  cases best with
  | none =>
    simp only [Store.IsBest] at h
    split_ifs <;> grind [Store.IsBest, Store.BestAmong]
  | some best =>
    obtain ⟨c, v⟩ := best
    obtain ⟨rfl, hc, hviable, hbest⟩ := h
    have hdistinct := hroots c hc
    simp only
    split_ifs <;> grind [Store.IsBest, Store.BestAmong, Store.Outweighs]

section

variable (hroots : ∀ c ∈ children, ∀ d ∈ children, (s.heap c).root = (s.heap d).root → c = d)

include hroots

/-- The comparisons of the loop find the best child. -/
theorem foldl_betterChild_isBest :
    s.IsBest justifiedEpoch currentEpoch children
      (children.foldl (s.betterChild justifiedEpoch currentEpoch) none) := by
  induction children using List.reverseRecOn with
  | nil => simp [Store.IsBest]
  | append_singleton children d ih =>
    rw [List.foldl_append, List.foldl_cons, List.foldl_nil]
    refine betterChild_isBest (fun c hc => hroots c ?_ d ?_) (ih fun c hc e he => hroots c ?_ e ?_)
    all_goals simp [*]

theorem bestChild_eq_some_iff {c : Nat} :
    (children.foldl (s.betterChild justifiedEpoch currentEpoch) none).map Prod.fst = some c ↔
      s.BestAmong justifiedEpoch currentEpoch children c := by
  have hbest : s.IsBest justifiedEpoch currentEpoch children _ := foldl_betterChild_isBest hroots
  cases hfold : children.foldl (s.betterChild justifiedEpoch currentEpoch) none with
  | none =>
    rw [hfold] at hbest
    grind [Store.IsBest, Store.BestAmong]
  | some best =>
    rw [hfold] at hbest
    obtain ⟨-, hbest⟩ := hbest
    refine ⟨fun heq => Option.some.inj heq ▸ hbest, fun hc => ?_⟩
    -- Neither of two best children outweighs the other.
    grind [Store.BestAmong, Store.Outweighs]

end

end BestChild

section Canonical

variable {s : Store} {currentEpoch r : Nat}

def Store.Starts (s : Store) (j : Nat) : Prop :=
  s.nodeByRoot s.justifiedCheckpoint.root = some j ∨
    (s.nodeByRoot s.justifiedCheckpoint.root = none ∧
      s.justifiedCheckpoint.epoch = genesisEpoch ∧ s.treeRootNode = some j)

/-- What a successful `Head` leaves behind. -/
structure Heads (currentEpoch r : Nat) (s : Store) : Prop where
  tree : IsTree s
  best : ∀ i, s.Live i → (s.heap i).bestDescendant = s.descendantOf
    ((s.kids i).foldl (s.betterChild s.justifiedCheckpoint.epoch currentEpoch) none)
  head : ∃ j, s.Starts j ∧ s.headNode = some ((s.heap j).bestDescendant.getD j) ∧
    r = (s.heap ((s.heap j).bestDescendant.getD j)).root

theorem SameTree.kids {s s' : Store} (h : SameTree s s') (i : Nat) : s'.kids i = s.kids i := by
  simp only [Store.kids, h.live_iff, (h.node i).2.2.2]

theorem headOfBalances_heads {w w' : World} (h : IsTree w.toStore) {headEpoch : Nat}
    (hrun : headOfBalances currentEpoch headEpoch w = .ok r w') :
    Heads currentEpoch r w'.toStore := by
  have hrun := headOfBalances_respects currentEpoch headEpoch w r w' hrun
  have htree : IsTree w.uncancelled.toStore := h
  change Heads currentEpoch r w'.uncancelled.toStore
  generalize w'.uncancelled = u' at *
  generalize hu : w.uncancelled = u at *
  have hctx : u.ctx = none := by rw [← hu]; rfl
  cases hroot : u.treeRootNode with
  | none =>
    rw [headOfBalances, get_bind_run, hroot, deref, throw_bind_run] at hrun
    cases hrun
  | some root =>
    obtain ⟨w₁, w₂, hw₁, hw₂, heq⟩ := headOfBalances_run htree hctx hroot currentEpoch headEpoch
    rw [heq] at hrun
    obtain ⟨j, hj, hr, -, hu'⟩ := head_eq_ok (by rw [hw₂.rest, hw₁.rest]; exact hctx) hrun
    have hsame := hw₁.sameTree.trans hw₂.sameTree
    have hjustified : w₂.justifiedCheckpoint = u.justifiedCheckpoint := by rw [hw₂.rest, hw₁.rest]
    subst hu'
    refine ⟨(htree.of_sameTree hsame).of_sameTree ⟨rfl, rfl, rfl, fun _ => ⟨rfl, rfl, rfl, rfl⟩, id⟩,
      fun i hi => ?_, j, (justifiedNode_eq_ok hj).2, rfl, hr⟩
    change (w₂.heap i).bestDescendant = w₂.descendantOf ((w₂.kids i).foldl
      (w₂.betterChild w₂.justifiedCheckpoint.epoch currentEpoch) none)
    rw [hsame.kids, hjustified]
    exact congrArg Node.bestDescendant (hw₂.best i ((hsame.live_iff i).1 hi))

/-- At each block above the justified one, the branch of the justified block is the best. -/
def Store.Favours (s : Store) (currentEpoch : Nat) : Prop :=
  ∀ j p c, s.Starts j → s.Live p → c ∈ (s.heap p).children → j ∈ subtree s.kids c →
    s.BestAmong s.justifiedCheckpoint.epoch currentEpoch (s.heap p).children c

def Store.Viable (s : Store) (currentEpoch n : Nat) : Prop :=
  (s.heap n).viableForHead s.justifiedCheckpoint.epoch currentEpoch = true

/-- Some block of the subtree is viable. -/
def Store.ViableBelow (s : Store) (currentEpoch n : Nat) : Prop :=
  ∃ i ∈ subtree s.kids n, s.Viable currentEpoch i

/-- From the justified block on, the walk goes to the best child with a viable block in its
subtree, as long as there is one. -/
def Store.Walks (s : Store) (currentEpoch r : Nat) : Prop :=
  ∃ j k, s.Starts j ∧ s.nodeByRoot r = some k ∧ k ∈ subtree s.kids j ∧
    (∀ p ∈ subtree s.kids j, ∀ c ∈ s.kids p, k ∈ subtree s.kids c →
      s.ViableBelow currentEpoch c ∧
        ∀ d ∈ s.kids p, s.ViableBelow currentEpoch d → d = c ∨ s.Outweighs c d) ∧
    ∀ d ∈ s.kids k, ¬ s.ViableBelow currentEpoch d

theorem leadsToViableHead_eq {n : Nat} :
    s.leadsToViableHead n s.justifiedCheckpoint.epoch currentEpoch = true ↔
      s.Viable currentEpoch ((s.heap n).bestDescendant.getD n) := by
  unfold Store.leadsToViableHead
  cases (s.heap n).bestDescendant <;> rfl

namespace Heads

variable (h : Heads currentEpoch r s)
include h

theorem follows : Follows s.kids {i | s.Live i}
    (fun p => ((s.kids p).foldl
      (s.betterChild s.justifiedCheckpoint.epoch currentEpoch) none).map Prod.fst)
    fun p => (s.heap p).bestDescendant.getD p :=
  follows_bestDescendant h.tree.closed_live h.best

theorem live_of_starts {j : Nat} (hj : s.Starts j) : s.Live j := by
  rcases hj with hmap | ⟨-, -, hroot⟩
  · exact h.tree.allocated.live hmap
  · exact (h.tree.root j hroot).1

/-- A block is canonical when it has the same tip as the justified block. -/
theorem isCanonical_iff {j q i : Nat} (hj : s.Live j)
    (hhead : s.headNode = some ((s.heap j).bestDescendant.getD j)) (hi : s.nodeByRoot q = some i) :
    s.isCanonical q = .ok true ↔
      (s.heap i).bestDescendant.getD i = (s.heap j).bestDescendant.getD j := by
  have hbound : ∀ i ∈ {i | s.Live i}, id i < s.next := fun i hi => h.tree.allocated.lt_of_live hi
  -- The head has no best descendant.
  have hnone : (s.heap ((s.heap j).bestDescendant.getD j)).bestDescendant = none := by
    have hlive : s.Live ((s.heap j).bestDescendant.getD j) :=
      h.tree.live_of_mem_subtree hj (h.follows.tip_mem h.tree.forest hbound hj)
    rw [h.best _ hlive, Option.map_eq_none_iff.1 (h.follows.choice_tip h.tree.forest hbound hj)]
    rfl
  unfold Store.isCanonical
  simp only [hi, hhead, hnone]
  cases (s.heap i).bestDescendant <;> simp

theorem canonical_iff :
    (∀ q i, s.nodeByRoot q = some i →
      (s.isCanonical q = .ok true ↔ ∃ k, s.nodeByRoot r = some k ∧ k ∈ subtree s.kids i)) ↔
      s.Favours currentEpoch := by
  obtain ⟨j, hstarts, hhead, hr⟩ := h.head
  have hj := h.live_of_starts hstarts
  have hbound : ∀ i ∈ {i | s.Live i}, id i < s.next := fun i hi => h.tree.allocated.lt_of_live hi
  have htip : s.Live ((s.heap j).bestDescendant.getD j) :=
    h.tree.live_of_mem_subtree hj (h.follows.tip_mem h.tree.forest hbound hj)
  have hroots : ∀ p, s.Live p → ∀ c ∈ (s.heap p).children, ∀ d ∈ (s.heap p).children,
      (s.heap c).root = (s.heap d).root → c = d := by
    intro p hp c hc d hd heq
    have hlive := (h.tree.children p hp c hc).1
    rw [Store.Live, heq, (h.tree.children p hp d hd).1] at hlive
    exact (Option.some.inj hlive).symm
  have hsome : ∀ i, (∃ k, s.nodeByRoot r = some k ∧ k ∈ subtree s.kids i) ↔
      (s.heap j).bestDescendant.getD j ∈ subtree s.kids i := by
    intro i
    rw [hr, htip]
    simp
  have hiff := h.follows.tip_eq_iff_mem h.tree.forest hbound hj
  constructor
  · intro hcanonical j' p c hj' hp hc hjc
    have heq : j' = j := by
      grind [Store.Starts]
    subst heq
    rw [← bestChild_eq_some_iff (hroots p hp), ← kids_of_live hp]
    refine hiff.1 (fun i hi => ?_) p hp c (mem_kids.2 ⟨hp, hc⟩) hjc
    rw [← h.isCanonical_iff hj hhead hi, ← hsome]
    exact hcanonical _ i hi
  · intro hfavours q i hi
    rw [h.isCanonical_iff hj hhead hi, hsome]
    refine hiff.2 (fun p hp c hc hjc => ?_) i (h.tree.allocated.live hi)
    rw [kids_of_live hp, bestChild_eq_some_iff (hroots p hp)]
    exact hfavours j p c hstarts hp (mem_kids.1 hc).2 hjc

variable {p : Nat} (hp : s.Live p)
include hp

theorem isBest : s.IsBest s.justifiedCheckpoint.epoch currentEpoch (s.kids p)
    ((s.kids p).foldl (s.betterChild s.justifiedCheckpoint.epoch currentEpoch) none) := by
  refine foldl_betterChild_isBest fun c hc d hd heq => ?_
  have hlive : s.Live c := h.tree.closed_live p hp c hc
  rw [Store.Live, heq, h.tree.closed_live p hp d hd] at hlive
  exact (Option.some.inj hlive).symm

theorem tip_mem : (s.heap p).bestDescendant.getD p ∈ subtree s.kids p :=
  h.follows.tip_mem h.tree.forest (fun _ hi => h.tree.allocated.lt_of_live hi) hp

/-- The tip of a subtree is viable if the block itself is, or the tip of a child. -/
theorem viable_tip (hviable : s.Viable currentEpoch p ∨ ∃ c ∈ s.kids p,
      s.Viable currentEpoch ((s.heap c).bestDescendant.getD c)) :
    s.Viable currentEpoch ((s.heap p).bestDescendant.getD p) := by
  have hbest := h.isBest hp
  cases hfold : (s.kids p).foldl (s.betterChild s.justifiedCheckpoint.epoch currentEpoch) none with
  | none =>
    rw [hfold] at hbest
    rw [h.follows.stop hp (by rw [hfold]; rfl)]
    obtain hviable | ⟨c, hc, hviable⟩ := hviable
    · exact hviable
    · exact absurd (leadsToViableHead_eq.2 hviable) (by rw [hbest c hc]; decide)
  | some best =>
    rw [hfold] at hbest
    rw [h.follows.next hp (by rw [hfold]; rfl)]
    exact leadsToViableHead_eq.1 hbest.2.2.1

theorem leadsToViableHead_iff :
    s.leadsToViableHead p s.justifiedCheckpoint.epoch currentEpoch = true ↔
      s.ViableBelow currentEpoch p := by
  rw [leadsToViableHead_eq]
  refine ⟨fun hviable => ⟨_, h.tip_mem hp, hviable⟩, ?_⟩
  rintro ⟨i, hi, hviable⟩
  induction hi using Relation.ReflTransGen.head_induction_on with
  | refl => exact h.viable_tip hp (.inl hviable)
  | head hc _ ih => exact h.viable_tip hp (.inr ⟨_, hc, ih (h.tree.closed_live _ hp _ hc)⟩)

omit hp in
theorem walks : s.Walks currentEpoch r := by
  obtain ⟨j, hstarts, -, hr⟩ := h.head
  have hj := h.live_of_starts hstarts
  have hbound : ∀ i ∈ {i | s.Live i}, id i < s.next := fun i hi => h.tree.allocated.lt_of_live hi
  have hlive := h.tree.live_of_mem_subtree hj (h.tip_mem hj)
  refine ⟨j, _, hstarts, hr ▸ hlive, h.tip_mem hj, fun p hp c hc hk => ?_, fun d hd hviable => ?_⟩
  · have htip := h.follows.tip_between h.tree.forest hbound hj hp (.head hc hk)
    replace hp := h.tree.live_of_mem_subtree hj hp
    have hkid := fun d hd => h.leadsToViableHead_iff (h.tree.closed_live p hp d hd)
    have hbest := h.isBest hp
    obtain ⟨⟨_, _⟩, hfold, rfl⟩ := Option.map_eq_some_iff.1
      (h.follows.choice_eq h.tree.forest hbound hp hc (by rw [htip]; exact hk))
    rw [hfold] at hbest
    exact ⟨(hkid _ hc).1 hbest.2.2.1, fun d hd hviable => hbest.2.2.2 d hd ((hkid d hd).2 hviable)⟩
  · have hbest := h.isBest hlive
    rw [Option.map_eq_none_iff.1 (h.follows.choice_tip h.tree.forest hbound hj)] at hbest
    have hlead := (h.leadsToViableHead_iff (h.tree.closed_live _ hlive _ hd)).2 hviable
    rw [hbest d hd] at hlead
    cases hlead

end Heads

end Canonical

section Run

variable (cfg : BeaconChainConfig)

theorem heads_of_run {calls : List Call} (h : Meets cfg (Tidy cfg) ForkChoice.new calls) {c : Call}
    {currentEpoch headEpoch r : Nat} (hop : c.operation = .Head currentEpoch headEpoch)
    (hrun : (Head cfg currentEpoch headEpoch).run' (c.start (run cfg calls)) = some r) :
    Heads currentEpoch r (run cfg (calls ++ [c])).toStore := by
  have htree : IsTree (c.start (run cfg calls)).toStore := isTree_run cfg h
  obtain ⟨w₀, -, htree₀, hhead⟩ := htree.head_of_counts cfg currentEpoch headEpoch
  have hstep : (run cfg (calls ++ [c])).toStore =
      (after (Head cfg currentEpoch headEpoch) (c.start (run cfg calls))).toStore := by
    rw [run_concat, step, hop, Operation.method, after_bind_pure]
  unfold EStateM.run' EStateM.run at hrun
  split at hrun
  · rename_i r' w' hok
    cases hrun
    rw [hstep, after_of_ok hok]
    exact headOfBalances_heads htree₀ (hhead.symm.trans hok)
  · cases hrun

/-- After a successful `Head` the canonical blocks are the head and its ancestors exactly when at
each block above the justified one the branch of the justified block is the best. -/
theorem canonical_of_head_iff (calls : List Call) (h : Meets cfg (Tidy cfg) ForkChoice.new calls)
    {c : Call} {currentEpoch headEpoch r : Nat} (hop : c.operation = .Head currentEpoch headEpoch)
    (hrun : (Head cfg currentEpoch headEpoch).run' (c.start (run cfg calls)) = some r) :
    (∀ q i, (run cfg (calls ++ [c])).nodeByRoot q = some i →
      ((run cfg (calls ++ [c])).isCanonical q = .ok true ↔
        ∃ k, (run cfg (calls ++ [c])).nodeByRoot r = some k ∧
          k ∈ subtree (run cfg (calls ++ [c])).kids i)) ↔
      (run cfg (calls ++ [c])).Favours currentEpoch :=
  (heads_of_run cfg h hop hrun).canonical_iff

/-- Two branches. The first of them is justified for epoch 1 by its second block, and the only
validator votes for the second. -/
def heavierBranch : List Call :=
  [.insertTimely ⟨1, 0, 0, some 0⟩ ⟨0, 0⟩ ⟨0, 0⟩ ⟨0, 0⟩ ⟨0, 0⟩,
    .insertTimely ⟨2, 32, 1, some 0⟩ ⟨0, 0⟩ ⟨0, 0⟩ ⟨0, 0⟩ ⟨0, 0⟩,
    .insertTimely ⟨3, 33, 1, some 0⟩ ⟨0, 0⟩ ⟨0, 0⟩ ⟨0, 0⟩ ⟨0, 0⟩,
    { Call.insertTimely ⟨4, 64, 2, some 0⟩ ⟨1, 2⟩ ⟨0, 0⟩ ⟨1, 2⟩ ⟨0, 0⟩ with
      balancesByRoot := fun _ => some [10] },
    { operation := .processAttestation [0] 3 1 }]

/-- The head is on the justified branch, its ancestor at the fork is not canonical. -/
theorem heavierBranch_not_canonical :
    (Head {} 2 2).run' (Call.start ⟨.Head 2 2, none, fun _ => none⟩ (run {} heavierBranch)) = some 4 ∧
      ((run {} (heavierBranch ++ [⟨.Head 2 2, none, fun _ => none⟩])).heap 3).parent = some 1 ∧
      ((run {} (heavierBranch ++ [⟨.Head 2 2, none, fun _ => none⟩])).heap 1).parent = some 0 ∧
      (run {} (heavierBranch ++ [⟨.Head 2 2, none, fun _ => none⟩])).nodeByRoot 4 = some 3 ∧
      (run {} (heavierBranch ++ [⟨.Head 2 2, none, fun _ => none⟩])).nodeByRoot 1 = some 0 ∧
      (run {} (heavierBranch ++ [⟨.Head 2 2, none, fun _ => none⟩])).isCanonical 1 = .ok false := by
  decide +kernel

/-- The branch of the justified block is not the best at the fork. -/
theorem heavierBranch_not_favours :
    ¬ (run {} (heavierBranch ++ [⟨.Head 2 2, none, fun _ => none⟩])).Favours 2 := by
  have htidy : Meets {} (Tidy {}) ForkChoice.new heavierBranch :=
    ⟨tidy_insertTimely, tidy_insertTimely, tidy_insertTimely, tidy_insertTimely, trivial, trivial⟩
  intro hfavours
  have hiff := (canonical_of_head_iff {} heavierBranch htidy (c := ⟨.Head 2 2, none, fun _ => none⟩)
    (r := 4) rfl (by decide +kernel)).2 hfavours 1 0 (by decide +kernel)
  have hpath : 3 ∈ subtree (run {} (heavierBranch ++ [⟨.Head 2 2, none, fun _ => none⟩])).kids 0 :=
    .head (b := 1) (by decide +kernel) (.single (by decide +kernel))
  have hcanonical := hiff.2 ⟨3, by decide +kernel, hpath⟩
  exact absurd hcanonical (by decide +kernel)

/-- For every run of tidy calls, a `Head` that succeeds after it returns the end of the walk. -/
theorem head_walks (calls : List Call) (h : Meets cfg (Tidy cfg) ForkChoice.new calls)
    {c : Call} {currentEpoch headEpoch r : Nat} (hop : c.operation = .Head currentEpoch headEpoch)
    (hrun : (Head cfg currentEpoch headEpoch).run' (c.start (run cfg calls)) = some r) :
    (run cfg (calls ++ [c])).Walks currentEpoch r :=
  (heads_of_run cfg h hop hrun).walks

theorem head_walks_heavierBranch :
    (run {} (heavierBranch ++ [⟨.Head 2 2, none, fun _ => none⟩])).Walks 2 4 := by
  refine head_walks {} heavierBranch ?_ (c := ⟨.Head 2 2, none, fun _ => none⟩) rfl
    (by decide +kernel)
  exact ⟨tidy_insertTimely, tidy_insertTimely, tidy_insertTimely, tidy_insertTimely, trivial, trivial⟩

end Run

end LightChain.DoublyLinkedTree

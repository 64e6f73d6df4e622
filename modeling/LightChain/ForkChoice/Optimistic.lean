import LightChain.ForkChoice.TreeRun

/-!
# Validated blocks

A block whose payload is validated has validated ancestors. `SetOptimisticToValid` writes a
node before it visits the parent, so it keeps this only if it is not cancelled on the way up,
and the other methods always do. In a tree no validated block is below an optimistic one, and
`SetOptimisticToInvalid` removes optimistic blocks only.
-/
namespace LightChain.DoublyLinkedTree
open Library Program

section Closed

/-- The parent of a validated node is validated, unless it is the node `hole`. -/
def AncestorsValidated (hole : Option Nat) (s : Store) : Prop :=
  ∀ i p, (s.heap i).parent = some p → (s.heap i).optimistic = false → hole ≠ some p →
    (s.heap p).optimistic = false

variable {s s' : Store} {w w' : World} {hole : Option Nat}

theorem AncestorsValidated.of_same (h : AncestorsValidated hole s)
    (hoptimistic : ∀ i, (s'.heap i).optimistic = (s.heap i).optimistic)
    (hparent : ∀ i, (s'.heap i).parent = (s.heap i).parent ∨ (s'.heap i).parent = none) :
    AncestorsValidated hole s' := by
  intro i p hp hi hne
  rw [hoptimistic] at hi ⊢
  rcases hparent i with hsame | hnone
  · exact h i p (hsame ▸ hp) hi hne
  · cases hnone.symm.trans hp

theorem AncestorsValidated.grows {cfg : BeaconChainConfig} {block : Block}
    {justifiedEpoch finalizedEpoch : Nat} (h : AncestorsValidated hole w.toStore)
    (ha : Allocated w.toStore) (hg : Grows cfg block justifiedEpoch finalizedEpoch w w') :
    AncestorsValidated hole w'.toStore := by
  obtain ⟨payloadHash, hnew⟩ := hg.new
  intro i p hp hi hne
  by_cases hin : i = w.next
  · -- A new node is optimistic.
    subst hin
    rw [hnew] at hi
    cases hi
  · rw [hg.old i hin] at hp hi
    have hlt := ha.parent i p hp
    rw [hg.old p (by omega)]
    exact h i p hp hi hne

theorem ancestorsValidated_stable (cfg : BeaconChainConfig) :
    Stable cfg (fun _ => True) fun w =>
      Allocated w.toStore ∧ AncestorsValidated none w.toStore where
  allocated h := h.1
  shrinks hs h := ⟨(allocated_stable cfg).shrinks hs h.1,
    h.2.of_same (fun i => by rw [(hs.node i).rest]) fun i => (hs.node i).parent⟩
  decorates hok hd h := ⟨(allocated_stable cfg).decorates hok hd h.1,
    h.2.of_same (fun i => by rw [hd.node i]) fun i => .inl (by rw [hd.node i])⟩
  attaches hok ha h := ⟨(allocated_stable cfg).attaches hok ha h.1, h.2.grows h.1 (ha.grows h.1)⟩
  cosmetic hc h := ⟨(allocated_stable cfg).cosmetic hc h.1,
    h.2.of_same (fun i => by rw [hc.node i]) fun i => .inl (by rw [hc.node i])⟩
  checkpoints hc h := ⟨(allocated_stable cfg).checkpoints hc h.1, by rw [hc]; exact h.2⟩
  epochs he h := by
    refine ⟨(allocated_stable cfg).epochs he h.1, ?_⟩
    obtain ⟨heap, ctx, rfl, -, he⟩ := he
    refine h.2.of_same (fun i => ?_) fun i => .inl (EpochsOnly.shape _ _ (he i)).2.2.1
    have hsame : heap i = _ := he i
    dsimp only
    rw [hsame]

end Closed

section Validation

/-- The optimistic nodes on the way up from a node, up to the first validated one. -/
def Store.unvalidated (s : Store) : Nat → Nat → Nat
  | 0, _ => 0
  | fuel + 1, n =>
    if (s.heap n).optimistic then
      match (s.heap n).parent with
      | none => 1
      | some parent => s.unvalidated fuel parent + 1
    else 0

/-- The way up only visits nodes at lower addresses. -/
theorem unvalidated_congr {s s' : Store} (ha : Allocated s) {fuel n : Nat}
    (h : ∀ i ≤ n, s'.heap i = s.heap i) : s'.unvalidated fuel n = s.unvalidated fuel n := by
  induction fuel generalizing n with
  | zero => rfl
  | succ fuel ih =>
    rw [Store.unvalidated, Store.unvalidated, h n le_rfl]
    cases hp : (s.heap n).parent with
    | none => rfl
    | some parent =>
      have hlt := (ha.parent n parent hp).1
      dsimp only
      rw [ih fun i hi => h i (by omega)]

/-- The remaining checks of the context are enough to visit a number of nodes. -/
def World.Lasts (w : World) (visits : Nat) : Prop := ∀ k, w.ctx = some k → visits ≤ k

theorem World.Lasts.ctxErr {w : World} {visits : Nat} (h : w.Lasts (visits + 1)) :
    ∃ ctx, ctxErr w = .ok () { w with ctx } ∧ World.Lasts { w with ctx } visits := by
  obtain ⟨f, _ | _ | k, balancesByRoot⟩ := w
  · exact ⟨none, rfl, nofun⟩
  · exact absurd (h 0 rfl) (Nat.not_succ_le_zero visits)
  · refine ⟨some k, rfl, ?_⟩
    rintro _ ⟨⟩
    exact Nat.le_of_succ_le_succ (h _ rfl)

/-- A node is validated and its parent is visited next: the parent becomes the hole. -/
theorem AncestorsValidated.validate {w : World} {n : Nat}
    (h : AncestorsValidated (some n) w.toStore) :
    AncestorsValidated (w.heap n).parent
      (w.modifyNode n fun node => { node with optimistic := false }).toStore := by
  intro i p hp hi hne
  rw [World.modifyNode_heap] at hp hi ⊢
  by_cases hpn : p = n
  · rw [if_pos hpn]
  · rw [if_neg hpn]
    by_cases hin : i = n
    · rw [if_pos hin] at hp
      exact absurd hp hne
    · rw [if_neg hin] at hp hi
      exact h i p hp hi (by simpa using Ne.symm hpn)

/-- On the way up, only the parent of the node that is visited can be out of line. If the way
is not interrupted, nothing is in the end. -/
theorem setNodeAndParentValidated_closes {fuel n : Nat} {w : World} (ha : Allocated w.toStore)
    (hfuel : n < fuel) (hctx : w.Lasts (w.unvalidated fuel n))
    (h : AncestorsValidated (some n) w.toStore) :
    AncestorsValidated none (after (setNodeAndParentValidated fuel n) w).toStore := by
  induction fuel generalizing n w with
  | zero => omega
  | succ fuel ih =>
    cases hopt : (w.heap n).optimistic with
    | false =>
      -- The visit ends here, with or without an error.
      have hclosed : AncestorsValidated none w.toStore := by
        intro i p hp hi _
        by_cases hpn : p = n
        · exact hpn ▸ hopt
        · exact h i p hp hi (by simpa using Ne.symm hpn)
      have hheap : (after (setNodeAndParentValidated (fuel + 1) n) w).heap = w.heap := by
        rw [setNodeAndParentValidated]
        rcases after_bind_cases DoublyLinkedTree.ctxErr _ w with hrun | ⟨_, hrun⟩
        all_goals
          obtain ⟨heap', ctx', hctx', -, hsame⟩ := ctxErr_heapStep (R := Eq) w
          rw [hrun, hctx']
        · exact funext fun i => (hsame i).symm
        · have hopt' : (heap' n).optimistic = false := by rw [← hsame n]; exact hopt
          simp only [after_get_bind, hopt', Bool.false_eq_true, if_false, after_pure]
          exact funext fun i => (hsame i).symm
      intro i p
      rw [hheap]
      exact hclosed i p
    | true =>
      rw [Store.unvalidated, if_pos hopt] at hctx
      rw [setNodeAndParentValidated]
      cases hp : (w.heap n).parent with
      | none =>
        rw [hp] at hctx
        obtain ⟨ctx, hrun, -⟩ := hctx.ctxErr
        rw [after_bind_of_ok hrun, after_get_bind]
        simp only [hopt, if_true, hp, modifyNode, after_modify_bind, after_pure]
        exact hp ▸ h.validate
      | some parent =>
        have hlt := (ha.parent n parent hp).1
        rw [hp] at hctx
        obtain ⟨ctx, hrun, hlasts⟩ := hctx.ctxErr
        rw [after_bind_of_ok hrun, after_get_bind]
        simp only [hopt, if_true, hp, modifyNode, after_modify_bind]
        generalize hw₁ : World.modifyNode { w with ctx } n
          (fun node => { node with optimistic := false }) = w₁
        have hbelow : ∀ i ≤ parent, w₁.heap i = w.heap i := by
          intro i hi
          rw [← hw₁, World.modifyNode_heap, if_neg (by omega)]
        refine ih (w := w₁) ?_ (by omega) ?_ ?_
        · rw [← hw₁]
          refine ha.of_sameShape (SameTree.sameShape ⟨rfl, rfl, rfl, fun i => ?_, id⟩)
          rw [World.modifyNode_heap]
          split_ifs with hi
          · subst hi
            exact ⟨rfl, rfl, rfl, rfl⟩
          · exact ⟨rfl, rfl, rfl, rfl⟩
        · rw [unvalidated_congr ha hbelow]
          rw [← hw₁]
          exact hlasts
        · have hvalidate := AncestorsValidated.validate (w := { w with ctx }) h
          rw [hw₁] at hvalidate
          rwa [← hp]

end Validation

section Run

variable (cfg : BeaconChainConfig)

/-- A call that validates a block is cancelled before its first write, or after it has
visited all optimistic ancestors of the block, or not at all. -/
def Validates (f : ForkChoice) (c : Call) : Prop :=
  ∀ root n k, c.operation = .setOptimisticToValid root → f.nodeByRoot root = some n →
    c.ctx = some k → k = 0 ∨ f.unvalidated f.next n ≤ k

theorem setOptimisticToValid_validated {root : Nat} {w : World} (ha : Allocated w.toStore)
    (h : AncestorsValidated none w.toStore)
    (hctx : ∀ n k, w.nodeByRoot root = some n → w.ctx = some k →
      k = 0 ∨ w.unvalidated w.next n ≤ k) :
    AncestorsValidated none (after (setOptimisticToValid root) w).toStore := by
  rw [setOptimisticToValid, after_get_bind]
  cases hn : w.nodeByRoot root with
  | none => exact h
  | some n =>
    have hfuel := (ha.keyed root n hn).2
    have hhole : AncestorsValidated (some n) w.toStore := fun i p hp hi _ => h i p hp hi nofun
    by_cases hzero : w.ctx = some 0
    · obtain ⟨fuel, hnext⟩ : ∃ fuel, w.next = fuel + 1 := ⟨w.next - 1, by omega⟩
      have hrun : ctxErr w = .error .contextCancelled w := by rw [ctxErr, hzero]
      dsimp only
      rw [after_get_bind, hnext, setNodeAndParentValidated, after_bind_of_error hrun]
      exact h
    · refine setNodeAndParentValidated_closes ha hfuel (fun k hk => ?_) hhole
      rcases hctx n k hn hk with rfl | hle
      · exact absurd hk hzero
      · exact hle

theorem step_ancestorsValidated {f : ForkChoice} {c : Call}
    (h : Allocated f.toStore ∧ AncestorsValidated none f.toStore) (hc : Validates f c) :
    Allocated (step cfg f c).toStore ∧ AncestorsValidated none (step cfg f c).toStore := by
  refine Stable.step cfg (J := fun s => Allocated s ∧ AncestorsValidated none s)
    (ancestorsValidated_stable cfg) (fun hc h => ⟨h.1.of_sameShape hc.sameTree.sameShape,
      h.2.of_same (fun i => by rw [hc.node i]) fun i => .inl (by rw [hc.node i])⟩) (fun root hop => ?_) h
  exact ⟨h.1.of_sameShape ((setOptimisticToValid_heapStep root (c.start f)).sameTree
      ValidatedOnly.shape).sameShape,
    setOptimisticToValid_validated (w := c.start f) h.1 h.2 fun n k hn hk => hc root n k hop hn hk⟩

theorem IsTree.optimistic_of_mem_subtree {s : Store} (h : IsTree s)
    (hvalidated : AncestorsValidated none s) {n i : Nat} (hn : (s.heap n).optimistic = true)
    (hi : i ∈ subtree s.kids n) : (s.heap i).optimistic = true := by
  have hclosed : Closed s.kids {i | (s.heap i).optimistic = true} := by
    intro p hp c hc
    obtain ⟨hlive, hmem⟩ := mem_kids.1 hc
    have hparent := (h.children p hlive c hmem).2
    by_contra hvalid
    have := hvalidated c p hparent (by simpa using hvalid) nofun
    exact Bool.false_ne_true (this.symm.trans hp)
  exact subtree_subset hclosed hn hi

theorem removeNode_validated {w : World} {m r i : Nat} (h : IsTree w.toStore)
    (hctx : w.ctx = none) (hvalidated : AncestorsValidated none w.toStore) (hm : w.Live m)
    (hi : w.nodeByRoot r = some i) (hvalid : (w.heap i).optimistic = false) :
    (after (removeNode m) w).nodeByRoot r = some i := by
  rcases removeNode_cases h hctx hm with hend | ⟨p, hoptimistic, -, herases⟩
  · rwa [hend]
  rw [herases.kept r]
  · exact hi
  intro j hj hroot
  -- A removed node under the root `r` would be the node `i`, which is validated.
  have hsame : (w.heap j).root = r := by
    rw [World.modifyNode_heap] at hroot
    split_ifs at hroot with hjp
    · rwa [hjp]
    · exact hroot
  have hj' : w.nodeByRoot r = some j := hsame ▸ h.live_of_mem_subtree hm hj
  cases hj'.symm.trans hi
  have := h.optimistic_of_mem_subtree hvalidated hoptimistic hj
  exact Bool.false_ne_true (hvalid.symm.trans this)

/-- Along a run whose validations are not cut short, the ancestors of a validated node are
validated. If the run also keeps the tree, invalidation removes no validated block. -/
theorem validated_of_validates (calls : List Call)
    (h : Meets cfg Validates ForkChoice.new calls) :
    (∀ i p, ((run cfg calls).heap i).parent = some p →
      ((run cfg calls).heap i).optimistic = false →
      ((run cfg calls).heap p).optimistic = false) ∧
    ∀ c root parentRoot payloadHash,
      c.operation = .setOptimisticToInvalid root parentRoot payloadHash →
      Meets cfg (Tidy cfg) ForkChoice.new (calls ++ [c]) →
      ∀ r i, (run cfg calls).nodeByRoot r = some i →
        ((run cfg calls).heap i).optimistic = false →
        (run cfg (calls ++ [c])).nodeByRoot r = some i := by
  have hnew : Allocated ForkChoice.new.toStore ∧ AncestorsValidated none ForkChoice.new.toStore :=
    ⟨isTree_new.allocated, nofun⟩
  have hrun : AncestorsValidated none (run cfg calls).toStore :=
    (h.foldl (I := fun f => Allocated f.toStore ∧ AncestorsValidated none f.toStore) hnew
      fun _ _ hf hc => step_ancestorsValidated cfg hf hc).2
  refine ⟨fun i p hp hi => hrun i p hp hi nofun, ?_⟩
  rintro ⟨operation, ctx, balancesByRoot⟩ root parentRoot payloadHash hop htidy r i hi hvalid
  dsimp only at hop
  subst hop
  obtain ⟨hcalls, hctx, -⟩ := along_append.1 htidy
  have htree : IsTree (run cfg calls).toStore := isTree_run cfg hcalls
  rw [run_concat, step, Operation.method, after_bind_pure]
  generalize hw : Call.start ⟨.setOptimisticToInvalid root parentRoot payloadHash, ctx,
    balancesByRoot⟩ (run cfg calls) = w
  have htree' : IsTree w.toStore := by rw [← hw]; exact htree
  have hctx' : w.ctx = none := by rw [← hw]; exact hctx
  have hrun' : AncestorsValidated none w.toStore := by rw [← hw]; exact hrun
  have hi' : w.nodeByRoot r = some i := by rw [← hw]; exact hi
  have hvalid' : (w.heap i).optimistic = false := by rw [← hw]; exact hvalid
  rcases setOptimisticToInvalid_cases root parentRoot payloadHash htree' hctx' with
    hend | ⟨m, hm, hend⟩
  · rwa [hend]
  · rw [after, hend]
    exact removeNode_validated htree' hctx' hrun' hm hi' hvalid'

/-- Three blocks of a chain, with their payloads. -/
def payloadChain : List Call :=
  [.insertTimely ⟨1, 0, 0, some 10⟩ ⟨0, 0⟩ ⟨0, 0⟩ ⟨0, 0⟩ ⟨0, 0⟩,
    .insertTimely ⟨2, 1, 1, some 20⟩ ⟨0, 0⟩ ⟨0, 0⟩ ⟨0, 0⟩ ⟨0, 0⟩,
    .insertTimely ⟨3, 2, 2, some 30⟩ ⟨0, 0⟩ ⟨0, 0⟩ ⟨0, 0⟩ ⟨0, 0⟩]

/-- The second block is validated before the third one is found invalid. -/
theorem validated_payloadChain :
    (run {} (payloadChain ++ [⟨.setOptimisticToValid 2, some 2, fun _ => none⟩,
      ⟨.setOptimisticToInvalid 3 2 20, none, fun _ => none⟩])).nodeByRoot 2 = some 1 ∧
    (run {} (payloadChain ++ [⟨.setOptimisticToValid 2, some 2, fun _ => none⟩,
      ⟨.setOptimisticToInvalid 3 2 20, none, fun _ => none⟩])).nodeByRoot 3 = none := by
  refine ⟨?_, by decide +kernel⟩
  refine (validated_of_validates {}
    (payloadChain ++ [⟨.setOptimisticToValid 2, some 2, fun _ => none⟩]) ?_).2
    ⟨.setOptimisticToInvalid 3 2 20, none, fun _ => none⟩ 3 2 20 rfl ?_ 2 1
    (by decide +kernel) (by decide +kernel)
  · refine ⟨?_, ?_, ?_, ?_, trivial⟩
    · rintro root n k ⟨⟩
    · rintro root n k ⟨⟩
    · rintro root n k ⟨⟩
    · rintro root n k ⟨⟩ hn ⟨⟩
      have hsecond : (run {} payloadChain).nodeByRoot 2 = some 1 := by decide +kernel
      cases hsecond.symm.trans hn
      exact .inr (by decide +kernel)
  · exact ⟨tidy_insertTimely, tidy_insertTimely, tidy_insertTimely, trivial, rfl, trivial⟩

/-- The validation of the third block is cancelled after its first write. A later call that is
not cancelled changes nothing, and the invalidation of the second block takes the validated
third block with it. -/
def cancelledValidation : List Call :=
  payloadChain ++ [⟨.setOptimisticToValid 3, some 1, fun _ => none⟩,
    ⟨.setOptimisticToValid 3, none, fun _ => none⟩]

theorem cancelledValidation_removed :
    ((run {} cancelledValidation).heap 2).parent = some 1 ∧
      ((run {} cancelledValidation).heap 2).optimistic = false ∧
      ((run {} cancelledValidation).heap 1).optimistic = true ∧
      (run {} cancelledValidation).nodeByRoot 3 = some 2 ∧
      (run {} (cancelledValidation ++
        [⟨.setOptimisticToInvalid 2 1 10, none, fun _ => none⟩])).nodeByRoot 3 = none := by
  decide +kernel

end Run

end LightChain.DoublyLinkedTree

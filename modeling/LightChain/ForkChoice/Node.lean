import LightChain.ForkChoice.Types

/-!
# Weights, best descendants and validation

The recursive methods of a node. Each takes a bound on the depth of the recursion, for which
the callers pass the size of the heap.
-/
namespace LightChain.DoublyLinkedTree
open Library Program

/-- Recompute the weights of a node and its descendants from their balances. -/
def applyWeightChanges : Nat → Nat → Method Unit
  | 0, _ => throw .outOfFuel
  | fuel + 1, n => do
    let childrenWeight ← ((← get).heap n).children.foldlM (fun childrenWeight child => do
      ctxErr
      applyWeightChanges fuel child
      return add64 childrenWeight ((← get).heap child).weight) 0
    let node := (← get).heap n
    -- The node of the zero hash keeps its weight.
    if node.root = 0 then return
    modifyNode n fun node => { node with weight := add64 node.balance childrenWeight }

def Node.viableForHead (n : Node) (justifiedEpoch currentEpoch : Nat) : Bool :=
  justifiedEpoch == 0 || n.justifiedEpoch == justifiedEpoch ||
    decide (currentEpoch ≤ add64 n.justifiedEpoch 2)

def Store.leadsToViableHead (s : Store) (n justifiedEpoch currentEpoch : Nat) : Bool :=
  match (s.heap n).bestDescendant with
  | none => (s.heap n).viableForHead justifiedEpoch currentEpoch
  | some d => (s.heap d).viableForHead justifiedEpoch currentEpoch

/-- The best child so far with its weight, after one more child has been compared. -/
def Store.betterChild (s : Store) (justifiedEpoch currentEpoch : Nat)
    (best : Option (Nat × Nat)) (child : Nat) : Option (Nat × Nat) :=
  if s.leadsToViableHead child justifiedEpoch currentEpoch then
    match best with
    | none => some (child, (s.heap child).weight)
    | some (bestChild, bestWeight) =>
      if (s.heap child).weight = bestWeight then
        -- Ties are broken by the root.
        if (s.heap bestChild).root < (s.heap child).root then some (child, bestWeight) else best
      else if bestWeight < (s.heap child).weight then some (child, (s.heap child).weight)
      else best
  else best

def Store.descendantOf (s : Store) (best : Option (Nat × Nat)) : Option Nat :=
  match best with
  | none => none
  | some (bestChild, _) => some ((s.heap bestChild).bestDescendant.getD bestChild)

def updateBestDescendant (justifiedEpoch currentEpoch : Nat) : Nat → Nat → Method Unit
  | 0, _ => throw .outOfFuel
  | fuel + 1, n => do
    ctxErr
    let best ← ((← get).heap n).children.foldlM (fun best child => do
      updateBestDescendant justifiedEpoch currentEpoch fuel child
      return (← get).betterChild justifiedEpoch currentEpoch best child) none
    let bestDescendant := (← get).descendantOf best
    modifyNode n fun node => { node with bestDescendant }

/-- Set a node and its ancestors as validated, up to the first one that already is. -/
def setNodeAndParentValidated : Nat → Nat → Method Unit
  | 0, _ => throw .outOfFuel
  | fuel + 1, n => do
    ctxErr
    let node := (← get).heap n
    if node.optimistic then
      modifyNode n fun node => { node with optimistic := false }
      match node.parent with
      | none => return
      | some parent => setNodeAndParentValidated fuel parent

section Effects

/-- The heap differs node by node as `R` says, and the rest only in the context. -/
def HeapStep (R : Node → Node → Prop) (w w' : World) : Prop :=
  ∃ heap ctx, w' = { w with heap, ctx } ∧ (w.ctx = none → ctx = none) ∧
    ∀ i, R (w.heap i) (heap i)

variable {R : Node → Node → Prop}

instance [Std.Refl R] : Std.Refl (HeapStep R) :=
  ⟨fun w => ⟨w.heap, w.ctx, rfl, id, fun _ => refl _⟩⟩

instance [IsTrans Node R] : IsTrans World (HeapStep R) := ⟨by
  rintro w _ _ ⟨heap, ctx, rfl, hctx, h⟩ ⟨heap', ctx', rfl, hctx', h'⟩
  exact ⟨heap', ctx', rfl, hctx' ∘ hctx, fun i => IsTrans.trans _ _ _ (h i) (h' i)⟩⟩

theorem ctxErr_heapStep [Std.Refl R] : Within (HeapStep R) ctxErr := by
  intro w
  refine ⟨w.heap, (after ctxErr w).ctx, ?_, ?_, fun _ => refl _⟩
  all_goals rcases w with ⟨fc, _ | _ | k, b⟩ <;> simp [after, ctxErr]

theorem modifyNode_heapStep [Std.Refl R] {n : Nat} {f : Node → Node} (h : ∀ a, R a (f a)) :
    Within (HeapStep R) (modifyNode n f) := by
  intro w
  refine ⟨_, w.ctx, rfl, id, fun i => ?_⟩
  rw [Function.update_apply]
  split_ifs with hi
  · exact hi ▸ h _
  · exact refl _

def WeightOnly (a b : Node) : Prop := b = { a with weight := b.weight }
def BestOnly (a b : Node) : Prop := b = { a with bestDescendant := b.bestDescendant }

def ValidatedOnly (a b : Node) : Prop :=
  b = { a with optimistic := b.optimistic } ∧ (b.optimistic = true → a.optimistic = true)

instance : Std.Refl WeightOnly := ⟨fun _ => rfl⟩
instance : Std.Refl BestOnly := ⟨fun _ => rfl⟩
instance : Std.Refl ValidatedOnly := ⟨fun _ => ⟨rfl, id⟩⟩
instance : IsTrans Node WeightOnly := ⟨by grind [WeightOnly]⟩
instance : IsTrans Node BestOnly := ⟨by grind [BestOnly]⟩
instance : IsTrans Node ValidatedOnly := ⟨by grind [ValidatedOnly]⟩

theorem applyWeightChanges_within (fuel n : Nat) :
    Within (HeapStep WeightOnly) (applyWeightChanges fuel n) := by
  induction fuel generalizing n with
  | zero => exact .throw _
  | succ fuel ih =>
    refine .get fun w => ?_
    refine Within.bind (.foldlM (fun _ child _ => ?_) _) (fun _ => .get fun w' => ?_) w
    · refine ctxErr_heapStep.bind fun _ => (ih child).bind fun _ => .get fun _ => ?_
      exact refl _
    · dsimp only
      split_ifs
      · exact refl _
      · refine modifyNode_heapStep (R := WeightOnly) ?_ w'
        exact fun _ => rfl

theorem updateBestDescendant_within (justifiedEpoch currentEpoch fuel n : Nat) :
    Within (HeapStep BestOnly) (updateBestDescendant justifiedEpoch currentEpoch fuel n) := by
  induction fuel generalizing n with
  | zero => exact .throw _
  | succ fuel ih =>
    refine ctxErr_heapStep.bind fun _ => .get fun w => ?_
    refine Within.bind (.foldlM (fun _ child _ => ?_) _) (fun _ => .get fun w' => ?_) w
    · refine (ih child).bind fun _ => .get fun _ => ?_
      exact refl _
    · refine modifyNode_heapStep (R := BestOnly) ?_ w'
      exact fun _ => rfl

theorem setNodeAndParentValidated_within (fuel n : Nat) :
    Within (HeapStep ValidatedOnly) (setNodeAndParentValidated fuel n) := by
  induction fuel generalizing n with
  | zero => exact .throw _
  | succ fuel ih =>
    refine ctxErr_heapStep.bind fun _ => .get fun w => ?_
    dsimp only
    split_ifs
    · have hnode : ∀ a : Node, ValidatedOnly a { a with optimistic := false } := fun _ =>
        ⟨rfl, fun h => by cases h⟩
      refine Within.bind (modifyNode_heapStep hnode) (fun _ => ?_) w
      cases (w.heap n).parent with
      | none => exact .pure _
      | some parent => exact ih parent
    · exact refl _

end Effects

end LightChain.DoublyLinkedTree

import LightChain.ForkChoice.Types
import LightChain.Library.Ancestry

/-!
# Targets and dependent roots

`TargetRootForEpoch` follows the targets of nodes to the checkpoint block of an epoch, and
`DependentRootForEpoch` gives the last block before an epoch on the chain of a root. They
answer from the nodes that are still in the tree. A store is consistent with the tree of all
blocks if its nodes are those blocks with their parents, and its targets the checkpoint
blocks of their epochs.
-/
namespace LightChain.DoublyLinkedTree
open Library Ancestry Nat

section Queries

variable (cfg : BeaconChainConfig) (s : Store)

/-- Each call of the recursion is for a node of an earlier epoch, so the epoch of the first
node bounds the depth. -/
def Store.targetRootFrom (epoch : Nat) : Nat → Nat → Except Error Nat
  | 0, _ => .error .outOfFuel
  | fuel + 1, root =>
    match s.nodeByRoot root with
    | none => .error .nilNode
    | some n =>
      let nodeEpoch := toEpoch cfg (s.heap n).slot
      if nodeEpoch < epoch then .ok (s.heap n).root
      else
        match (s.heap n).target with
        | none => .ok 0
        | some target =>
          if epoch = nodeEpoch then .ok (s.heap target).root
          else
            match s.nodeByRoot (s.heap target).root with
            | none => .error .nilNode
            | some targetNode =>
              -- If the first slot was not missed, the parent is in an earlier epoch.
              if nodeEpoch = toEpoch cfg (s.heap targetNode).slot then
                match (s.heap targetNode).parent with
                | none => .error .nilNode
                | some parent => Store.targetRootFrom epoch fuel (s.heap parent).root
              else Store.targetRootFrom epoch fuel (s.heap targetNode).root

def Store.targetRootForEpoch (root epoch : Nat) : Except Error Nat :=
  match s.nodeByRoot root with
  | none => .error .nilNode
  | some n => s.targetRootFrom cfg epoch (toEpoch cfg (s.heap n).slot + 1) root

def Store.dependentRootForEpoch (root epoch : Nat) : Except Error Nat :=
  match s.targetRootForEpoch cfg root epoch with
  | .error e => .error e
  | .ok tr =>
    if tr = 0 then .ok 0
    else
      match s.nodeByRoot tr with
      | none => .error .nilNode
      | some node =>
        if epoch ≤ toEpoch cfg (s.heap node).slot then
          match (s.heap node).parent with
          | some parent => .ok (s.heap parent).root
          | none => .ok s.finalizedDependentRoot
        else .ok (s.heap node).root

/-- `IsCanonical`. The head node is dereferenced. -/
def Store.isCanonical (root : Nat) : Except Error Bool :=
  match s.nodeByRoot root with
  | none => .ok false
  | some node =>
    match s.headNode with
    | none => .error .nilDereference
    | some head =>
      match (s.heap node).bestDescendant, (s.heap head).bestDescendant with
      | none, none => .ok (node == head)
      | none, some best => .ok (node == best)
      | some best, none => .ok (best == head)
      | some best, some best' => .ok (best == best')

def Store.isViableForCheckpoint (ignoreUnviableAttestations : Bool) (cp : Checkpoint) :
    Except Error Bool :=
  match s.nodeByRoot cp.root with
  | none => .ok false
  | some node =>
    match epochStart cfg cp.epoch with
    | none => .error .epochStart
    | some epochStart =>
      if epochStart < (s.heap node).slot then .ok false
      else if (s.heap node).children = [] then .ok true
      else if (s.heap node).slot = epochStart then .ok true
      else if !ignoreUnviableAttestations ∧
          add64 (toEpoch cfg (s.heap node).slot) 1 = cp.epoch then .ok true
      else .ok ((s.heap node).children.any fun child => decide (epochStart < (s.heap child).slot))

end Queries

section Consistent

variable (cfg : BeaconChainConfig) (blocks : Ancestry Nat)

/-- The store holds a part of the tree of blocks that one of its nodes spans. The target of a
node is the last block up to the first slot of its epoch, which may have left the store. A node
without a target is in the epoch of the node that spans the tree, after the first slot. No block
has the zero hash. -/
structure Store.Consistent (s : Store) : Prop where
  zero : s.nodeByRoot 0 = none
  node : ∀ r n, s.nodeByRoot r = some n → (s.heap n).root = r ∧ (s.heap n).slot = blocks.slot r
  parent : ∀ r n p, s.nodeByRoot r = some n → (s.heap n).parent = some p →
    ∃ q, blocks.parent r = some q ∧ s.nodeByRoot q = some p
  top : ∃ r n, s.nodeByRoot r = some n ∧
    ∀ r' n', s.nodeByRoot r' = some n' → blocks.Ancestor r r'
  no_parent : ∀ r n, s.nodeByRoot r = some n → (s.heap n).parent = none →
    ∀ r' n', s.nodeByRoot r' = some n' → blocks.Ancestor r r'
  target : ∀ r n k, s.nodeByRoot r = some n → (s.heap n).target = some k →
    blocks.lastBefore r (toEpoch cfg (blocks.slot r) * cfg.slotsPerEpoch + 1) =
      some (s.heap k).root ∧ (s.heap k).root ≠ 0
  no_target : ∀ r n, s.nodeByRoot r = some n → (s.heap n).target = none →
    ∀ r' n', s.nodeByRoot r' = some n' →
      toEpoch cfg (blocks.slot r) * cfg.slotsPerEpoch < blocks.slot r'

variable {cfg blocks} {s : Store}

theorem slot_lt_of_toEpoch_lt {slot epoch : Nat} (h : toEpoch cfg slot < epoch) :
    slot < epoch * cfg.slotsPerEpoch :=
  (Nat.div_lt_iff_lt_mul cfg.slotsPerEpoch_pos).1 h

theorem le_slot_of_le_toEpoch {slot epoch : Nat} (h : epoch ≤ toEpoch cfg slot) :
    epoch * cfg.slotsPerEpoch ≤ slot :=
  (Nat.le_div_iff_mul_le cfg.slotsPerEpoch_pos).1 h

/-- The checkpoint block of an epoch, or none because all nodes come after its first slot. The
recursion ends within its bound. -/
theorem Store.Consistent.targetRootFrom (h : s.Consistent cfg blocks) {fuel r n : Nat}
    (epoch : Nat) (hr : s.nodeByRoot r = some n) (hfuel : toEpoch cfg (blocks.slot r) < fuel) :
    match s.targetRootFrom cfg epoch fuel r with
    | .ok d => (blocks.lastBefore r (epoch * cfg.slotsPerEpoch + 1) = some d ∧ d ≠ 0) ∨
      (d = 0 ∧ ∀ r' n', s.nodeByRoot r' = some n' → epoch * cfg.slotsPerEpoch < blocks.slot r')
    | .error e => e ≠ .outOfFuel := by
  induction fuel generalizing r n with
  | zero => exact absurd hfuel (Nat.not_lt_zero _)
  | succ fuel ih =>
    obtain ⟨hroot, hslot⟩ := h.node r n hr
    unfold Store.targetRootFrom
    rw [hr]
    simp only [hroot, hslot]
    by_cases hlater : toEpoch cfg (blocks.slot r) < epoch
    · rw [if_pos hlater]
      refine .inl ⟨lastBefore_of_lt ?_, fun hzero => ?_⟩
      · exact lt_succ_of_lt (slot_lt_of_toEpoch_lt hlater)
      · rw [hzero, h.zero] at hr
        cases hr
    rw [if_neg hlater]
    have hle : epoch * cfg.slotsPerEpoch ≤
        toEpoch cfg (blocks.slot r) * cfg.slotsPerEpoch :=
      Nat.mul_le_mul_right _ (Nat.not_lt.1 hlater)
    cases htarget : (s.heap n).target with
    | none => exact .inr ⟨rfl, fun r' n' hr' => hle.trans_lt (h.no_target r n hr htarget r' n' hr')⟩
    | some k =>
      obtain ⟨hlast, hzero⟩ := h.target r n k hr htarget
      obtain ⟨-, hlt, -⟩ := lastBefore_eq_some hlast
      dsimp only
      by_cases hsame : epoch = toEpoch cfg (blocks.slot r)
      · rw [if_pos hsame]
        subst hsame
        exact .inl ⟨hlast, hzero⟩
      have hbefore : epoch * cfg.slotsPerEpoch + 1 ≤
          toEpoch cfg (blocks.slot r) * cfg.slotsPerEpoch := by
        have : epoch + 1 ≤ toEpoch cfg (blocks.slot r) := by omega
        calc epoch * cfg.slotsPerEpoch + 1
            ≤ epoch * cfg.slotsPerEpoch + cfg.slotsPerEpoch :=
              Nat.add_le_add_left cfg.slotsPerEpoch_pos _
          _ = (epoch + 1) * cfg.slotsPerEpoch := (succ_mul _ _).symm
          _ ≤ _ := Nat.mul_le_mul_right _ this
      -- The chain of the node and that of its target have the same block of the epoch.
      have hsteps : blocks.lastBefore r (epoch * cfg.slotsPerEpoch + 1) =
          blocks.lastBefore (s.heap k).root (epoch * cfg.slotsPerEpoch + 1) := by
        rw [← lastBefore_bind (hbefore.trans (le_succ _)), hlast]
        rfl
      rw [if_neg hsame]
      cases hnode : s.nodeByRoot (s.heap k).root with
      | none => exact nofun
      | some targetNode =>
        obtain ⟨hkroot, hkslot⟩ := h.node _ _ hnode
        have hkepoch : toEpoch cfg (blocks.slot (s.heap k).root) ≤ toEpoch cfg (blocks.slot r) :=
          (Nat.div_le_div_right (le_of_lt_succ hlt)).trans
            (Nat.mul_div_cancel _ cfg.slotsPerEpoch_pos).le
        simp only [hkroot, hkslot]
        split_ifs with hepoch
        · cases hparent : (s.heap targetNode).parent with
          | none => exact nofun
          | some p =>
            obtain ⟨q, hq, hp⟩ := h.parent _ _ _ hnode hparent
            have hqslot := (blocks.slot_lt hq).trans_le (le_of_lt_succ hlt)
            have hqepoch := (Nat.div_lt_iff_lt_mul cfg.slotsPerEpoch_pos).2 hqslot
            have hkle := le_slot_of_le_toEpoch (le_of_eq hepoch)
            simp only [(h.node q p hp).1]
            rw [hsteps, lastBefore_of_parent (hbefore.trans hkle) hq]
            exact ih hp (hqepoch.trans_le (le_of_lt_succ hfuel))
        · rw [hsteps]
          exact ih hnode (by omega)

theorem live_of_dependentRootForEpoch {r epoch d : Nat}
    (hrun : s.dependentRootForEpoch cfg r epoch = .ok d) : ∃ n, s.nodeByRoot r = some n := by
  refine Option.ne_none_iff_exists'.1 fun hr => ?_
  simp [Store.dependentRootForEpoch, Store.targetRootForEpoch, hr] at hrun

/-- The last block before an epoch, or all nodes come after the epoch's start. -/
theorem Store.Consistent.dependentRootForEpoch (h : s.Consistent cfg blocks) {epoch r d : Nat}
    (hrun : s.dependentRootForEpoch cfg r epoch = .ok d) :
    blocks.lastBefore r (epoch * cfg.slotsPerEpoch) = some d ∨
      ∀ r' n', s.nodeByRoot r' = some n' → epoch * cfg.slotsPerEpoch ≤ blocks.slot r' := by
  obtain ⟨n, hr⟩ := live_of_dependentRootForEpoch hrun
  have hfuel : toEpoch cfg (blocks.slot r) < toEpoch cfg (s.heap n).slot + 1 := by
    rw [(h.node r n hr).2]
    exact lt_succ_self _
  have hfrom := h.targetRootFrom epoch hr hfuel
  simp only [Store.dependentRootForEpoch, Store.targetRootForEpoch, hr] at hrun
  split at hrun
  · cases hrun
  next tr htarget =>
  rw [htarget] at hfrom
  rcases hfrom with ⟨hlast, hzero⟩ | ⟨-, hall⟩
  · rw [if_neg hzero] at hrun
    split at hrun
    · cases hrun
    next node hnode =>
    obtain ⟨hroot, hslot⟩ := h.node tr node hnode
    obtain ⟨hanc, hlt, -⟩ := lastBefore_eq_some hlast
    have hstep : blocks.lastBefore r (epoch * cfg.slotsPerEpoch) =
        blocks.lastBefore tr (epoch * cfg.slotsPerEpoch) := by
      rw [← lastBefore_bind (le_succ _), hlast]
      rfl
    simp only [hroot, hslot] at hrun
    split_ifs at hrun with hepoch
    · -- The checkpoint block is in the first slot of the epoch, so its parent is the one.
      have hle := le_slot_of_le_toEpoch hepoch
      split at hrun
      next p hparent =>
        obtain ⟨q, hq, hp⟩ := h.parent tr node p hnode hparent
        rw [(h.node q p hp).1] at hrun
        cases hrun
        left
        rw [hstep, lastBefore_of_parent hle hq]
        exact lastBefore_of_lt ((blocks.slot_lt hq).trans_le (le_of_lt_succ hlt))
      next hparent =>
      exact .inr fun r' n' hr' =>
        hle.trans (h.no_parent tr node hnode hparent r' n' hr').slot_le
    · cases hrun
      left
      rw [hstep]
      exact lastBefore_of_lt (slot_lt_of_toEpoch_lt (Nat.not_le.1 hepoch))
  · exact .inr fun r' n' hr' => (hall r' n' hr').le

/-- Two roots with the same dependent root have the same history before the epoch. -/
theorem Store.Consistent.lastBefore_eq (h : s.Consistent cfg blocks) {epoch r r' d bound : Nat}
    (hr : s.dependentRootForEpoch cfg r epoch = .ok d)
    (hr' : s.dependentRootForEpoch cfg r' epoch = .ok d)
    (hbound : bound ≤ epoch * cfg.slotsPerEpoch) :
    blocks.lastBefore r bound = blocks.lastBefore r' bound := by
  obtain ⟨n, hn⟩ := live_of_dependentRootForEpoch hr
  obtain ⟨n', hn'⟩ := live_of_dependentRootForEpoch hr'
  -- If all nodes come after the start, what is before is the history of the node at the top.
  have hlate (hall : ∀ r n, s.nodeByRoot r = some n → epoch * cfg.slotsPerEpoch ≤ blocks.slot r) :
      blocks.lastBefore r bound = blocks.lastBefore r' bound := by
    obtain ⟨top, k, hk, htop⟩ := h.top
    have hle := hbound.trans (hall top k hk)
    rw [(htop r n hn).lastBefore_eq hle, (htop r' n' hn').lastBefore_eq hle]
  rcases h.dependentRootForEpoch hr with hlast | hall
  · rcases h.dependentRootForEpoch hr' with hlast' | hall
    · rw [← lastBefore_bind hbound, hlast, ← lastBefore_bind hbound, hlast']
    · exact hlate hall
  · exact hlate hall

end Consistent

end LightChain.DoublyLinkedTree

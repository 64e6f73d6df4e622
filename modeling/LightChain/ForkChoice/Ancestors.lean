import LightChain.ForkChoice.Targets
import LightChain.ForkChoice.Tree

/-!
# Walks to the ancestors

`AncestorRoot` and `CommonAncestor` follow parent pointers. On a tree whose slots increase from
parent to child the first stops at the last ancestor up to a slot and the second at the last
common ancestor. `IsViableForCheckpoint` looks only at a node and its children, and answers
whether the first walk reaches the node from some leaf.
-/
namespace LightChain.DoublyLinkedTree
open Library Program Ancestry

section Walks

/-- The loop of `AncestorRoot`. Each round goes to a smaller slot, which bounds the rounds. -/
def ancestorLoop (slot : Nat) : Nat → Nat → Method Nat
  | 0, _ => throw .outOfFuel
  | fuel + 1, n => do
    let w ← get
    if slot < (w.heap n).slot then do
      ctxErr
      match (w.heap n).parent with
      | none => throw (.wrap "could not determine ancestor root" .nilNode)
      | some parent => ancestorLoop slot fuel parent
    else pure n

def ancestorRoot (root slot : Nat) : Method Nat := do
  let w ← get
  match w.nodeByRoot root with
  | none => throw (.wrap "could not determine ancestor root" .nilNode)
  | some node => do
    let n ← ancestorLoop slot ((w.heap node).slot + 1) node
    pure (w.heap n).root

/-- The loop of `CommonAncestor`. Each round lowers the sum of the two slots. -/
def commonAncestorLoop : Nat → Nat → Nat → Method (Nat × Nat)
  | 0, _, _ => throw .outOfFuel
  | fuel + 1, n1, n2 => do
    ctxErr
    let w ← get
    if (w.heap n2).slot < (w.heap n1).slot then
      match (w.heap n1).parent with
      | none => throw .unknownCommonAncestor
      | some n1 =>
        if n1 = n2 then pure ((w.heap n1).root, (w.heap n1).slot)
        else commonAncestorLoop fuel n1 n2
    else
      match (w.heap n2).parent with
      | none => throw .unknownCommonAncestor
      | some n2 =>
        if n1 = n2 then pure ((w.heap n1).root, (w.heap n1).slot)
        else commonAncestorLoop fuel n1 n2

def commonAncestor (r1 r2 : Nat) : Method (Nat × Nat) := do
  let w ← get
  match w.nodeByRoot r1 with
  | none => throw .unknownCommonAncestor
  | some n1 =>
    if r1 = r2 then pure (r1, (w.heap n1).slot)
    else
      match w.nodeByRoot r2 with
      | none => throw .unknownCommonAncestor
      | some n2 => commonAncestorLoop ((w.heap n1).slot + (w.heap n2).slot + 1) n1 n2

end Walks

/-- The nodes form one tree whose slots increase from parent to child. It holds all nodes of
the map, and may also hold nodes that have left the map and are still linked. -/
structure NodeTree (s : Store) (nodes : Finset Nat) : Prop where
  mapped : ∀ r n, s.nodeByRoot r = some n → n ∈ nodes ∧ (s.heap n).root = r
  child : ∀ p ∈ nodes, ∀ c ∈ (s.heap p).children, c ∈ nodes ∧ (s.heap c).parent = some p
  parent : ∀ c ∈ nodes, ∀ p, (s.heap c).parent = some p →
    p ∈ nodes ∧ c ∈ (s.heap p).children ∧ (s.heap p).slot < (s.heap c).slot
  top : ∃ t, ∀ n ∈ nodes, (s.heap n).parent = none → n = t

namespace NodeTree

variable {s : Store} {nodes : Finset Nat} (tree : NodeTree s nodes)

/-- The nodes with their parents as a tree of blocks. -/
def blocks : Ancestry Nat where
  slot n := (s.heap n).slot
  parent n := if n ∈ nodes then (s.heap n).parent else none
  slot_lt {r p} h := by
    split_ifs at h with hr
    exact (tree.parent r hr p h).2.2

variable {n p m : Nat}

theorem blocks_parent (hn : n ∈ nodes) : tree.blocks.parent n = (s.heap n).parent := if_pos hn

theorem mem_of_ancestor (hn : n ∈ nodes) (h : tree.blocks.Ancestor m n) : m ∈ nodes := by
  induction h with
  | refl => exact hn
  | @step r p hparent _ ih =>
    rw [tree.blocks_parent hn] at hparent
    exact ih (tree.parent r hn p hparent).1

theorem exists_top : ∃ t, ∀ n ∈ nodes, tree.blocks.Ancestor t n := by
  obtain ⟨t, ht⟩ := tree.top
  refine ⟨t, fun n hn => ?_⟩
  induction hslot : (s.heap n).slot using Nat.strong_induction_on generalizing n with
  | h k ih =>
    cases hparent : (s.heap n).parent with
    | none => exact ht n hn hparent ▸ .refl
    | some p =>
      obtain ⟨hp, -, hlt⟩ := tree.parent n hn p hparent
      refine .step ?_ (ih _ (hslot ▸ hlt) p hp rfl)
      rw [tree.blocks_parent hn, hparent]

include tree in
theorem exists_parent {o : Nat} (hn : n ∈ nodes) (ho : o ∈ nodes) (hne : n ≠ o)
    (hslot : (s.heap o).slot ≤ (s.heap n).slot) :
    ∃ p ∈ nodes, (s.heap n).parent = some p ∧ (s.heap p).slot < (s.heap n).slot := by
  cases hparent : (s.heap n).parent with
  | none =>
    obtain ⟨t, ht⟩ := tree.exists_top
    cases ht n hn with
    | refl => exact absurd ((ht o ho).eq_of_slot hslot) hne
    | step h _ =>
      rw [tree.blocks_parent hn, hparent] at h
      cases h
  | some p =>
    obtain ⟨hp, -, hlt⟩ := tree.parent n hn p hparent
    exact ⟨p, hp, rfl, hlt⟩

theorem exists_leaf (hn : n ∈ nodes) :
    ∃ leaf ∈ nodes, (s.heap leaf).children = [] ∧ tree.blocks.Ancestor n leaf := by
  classical
  -- a descendant with the greatest slot has no children
  obtain ⟨leaf, hleaf, hmax⟩ := Finset.exists_max_image
    (nodes.filter fun m => tree.blocks.Ancestor n m) (fun m => (s.heap m).slot)
    ⟨n, Finset.mem_filter.2 ⟨hn, .refl⟩⟩
  obtain ⟨hmem, hbelow⟩ := Finset.mem_filter.1 hleaf
  refine ⟨leaf, hmem, ?_, hbelow⟩
  rw [List.eq_nil_iff_forall_not_mem]
  intro c hc
  obtain ⟨hcmem, hparent⟩ := tree.child leaf hmem c hc
  have hstep : tree.blocks.Ancestor n c :=
    .step ((tree.blocks_parent hcmem).trans hparent) hbelow
  have hle := hmax c (Finset.mem_filter.2 ⟨hcmem, hstep⟩)
  have hlt := (tree.parent c hcmem leaf hparent).2.2
  omega

end NodeTree

section Common

variable {f : ForkChoice} {nodes : Finset Nat} (tree : NodeTree f.toStore nodes)

/-- The program returns the value and changes nothing but the context, unless the context is
cancelled. -/
def Answers {α : Type} (program : Method α) (value : α) (w : World) : Prop :=
  (∃ w', w'.toForkChoice = w.toForkChoice ∧ program w = .ok value w') ∨
    w.ctx ≠ none ∧ ∃ w', program w = .error .contextCancelled w'

theorem Answers.of_ctxErr {α : Type} {program : Unit → Method α} {value : α}
    {b : Nat → Option (List Nat)} (h : ∀ c, Answers (program ()) value ⟨f, c, b⟩)
    (c : Option Nat) : Answers (ctxErr >>= program) value ⟨f, c, b⟩ := by
  match c with
  | none => exact h none
  | some 0 => exact .inr ⟨by simp, _, rfl⟩
  | some (k + 1) =>
    rcases h (some k) with hok | ⟨-, hcancelled⟩
    · exact .inl hok
    · exact .inr ⟨by simp, hcancelled⟩

/-- Each round moves the later side to its parent, which passes no common ancestor, and the walk
stops where the two sides meet. -/
theorem commonAncestorLoop_lastCommon {fuel n1 n2 : Nat} (h1 : n1 ∈ nodes) (h2 : n2 ∈ nodes)
    (hne : n1 ≠ n2) (hfuel : (f.heap n1).slot + (f.heap n2).slot < fuel) :
    ∃ m, tree.blocks.LastCommon n1 n2 m ∧ ∀ c b,
      Answers (commonAncestorLoop fuel n1 n2) ((f.heap m).root, (f.heap m).slot) ⟨f, c, b⟩ := by
  induction fuel generalizing n1 n2 with
  | zero => omega
  | succ fuel ih =>
    by_cases hlt : (f.heap n2).slot < (f.heap n1).slot
    · obtain ⟨p, hp, hparent, hslot⟩ := tree.exists_parent h1 h2 hne hlt.le
      have hup {m : Nat} (h : tree.blocks.LastCommon p n2 m) : tree.blocks.LastCommon n1 n2 m :=
        h.of_parent hne hlt.le ((tree.blocks_parent h1).trans hparent)
      by_cases hmeet : p = n2
      · subst hmeet
        refine ⟨p, hup lastCommon_self, fun c b => .of_ctxErr (fun c => .inl ?_) c⟩
        exact ⟨⟨f, c, b⟩, rfl, by simp [hlt, hparent]⟩
      · obtain ⟨m, hm, hrun⟩ := ih hp h2 hmeet (by omega)
        refine ⟨m, hup hm, fun c b => .of_ctxErr (fun c => ?_) c⟩
        simpa [Answers, hlt, hparent, hmeet] using hrun c b
    · obtain ⟨p, hp, hparent, hslot⟩ := tree.exists_parent h2 h1 hne.symm (not_lt.1 hlt)
      have hup {m : Nat} (h : tree.blocks.LastCommon n1 p m) : tree.blocks.LastCommon n1 n2 m :=
        (h.symm.of_parent hne.symm (not_lt.1 hlt) ((tree.blocks_parent h2).trans hparent)).symm
      by_cases hmeet : n1 = p
      · subst hmeet
        refine ⟨n1, hup lastCommon_self, fun c b => .of_ctxErr (fun c => .inl ?_) c⟩
        exact ⟨⟨f, c, b⟩, rfl, by simp [hlt, hparent]⟩
      · obtain ⟨m, hm, hrun⟩ := ih h1 hp hmeet (by omega)
        refine ⟨m, hup hm, fun c b => .of_ctxErr (fun c => ?_) c⟩
        simpa [Answers, hlt, hparent, hmeet] using hrun c b

theorem commonAncestor_answers {r1 r2 n1 n2 : Nat} (h1 : f.nodeByRoot r1 = some n1)
    (h2 : f.nodeByRoot r2 = some n2) : ∃ m, tree.blocks.LastCommon n1 n2 m ∧ ∀ c b,
      Answers (commonAncestor r1 r2) ((f.heap m).root, (f.heap m).slot) ⟨f, c, b⟩ := by
  obtain ⟨hmem1, hroot1⟩ := tree.mapped r1 n1 h1
  obtain ⟨hmem2, hroot2⟩ := tree.mapped r2 n2 h2
  by_cases hsame : r1 = r2
  · subst hsame
    obtain rfl := Option.some.inj (h1.symm.trans h2)
    refine ⟨n1, lastCommon_self, fun c b => .inl ⟨⟨f, c, b⟩, rfl, ?_⟩⟩
    simp [commonAncestor, h1, hroot1]
  · have hne : n1 ≠ n2 := fun heq => hsame (by rw [← hroot1, heq, hroot2])
    obtain ⟨m, hm, hrun⟩ := commonAncestorLoop_lastCommon tree hmem1 hmem2 hne (Nat.lt_succ_self _)
    refine ⟨m, hm, fun c b => ?_⟩
    simpa [commonAncestor, Answers, h1, h2, hsame] using hrun c b

/-- `CommonAncestor` returns the last common ancestor of two roots, in either order. -/
theorem commonAncestor_lastCommon {w : World} (tree : NodeTree w.toStore nodes) {r1 r2 n1 n2 : Nat}
    (h1 : w.nodeByRoot r1 = some n1) (h2 : w.nodeByRoot r2 = some n2) :
    ∃ m, tree.blocks.LastCommon n1 n2 m ∧
      Answers (commonAncestor r1 r2) ((w.heap m).root, (w.heap m).slot) w ∧
      Answers (commonAncestor r2 r1) ((w.heap m).root, (w.heap m).slot) w := by
  rcases w with ⟨f, c, b⟩
  obtain ⟨m, hm, hrun⟩ := commonAncestor_answers tree h1 h2
  obtain ⟨m', hm', hrun'⟩ := commonAncestor_answers tree h2 h1
  obtain rfl := hm.unique hm'.symm
  exact ⟨m, hm, hrun c b, hrun' c b⟩

end Common

/-- Two blocks on one parent, at slots 1 and 40. -/
def forkedPair : Store where
  heap
    | 0 => { slot := 0, root := 1, children := [1, 2] }
    | 1 => { slot := 1, root := 2, parent := some 0 }
    | 2 => { slot := 40, root := 3, parent := some 0 }
    | _ => {}
  nodeByRoot
    | 1 => some 0
    | 2 => some 1
    | 3 => some 2
    | _ => none

theorem forkedPair_nodeTree : NodeTree forkedPair {0, 1, 2} where
  mapped r n h := by
    match r with
    | 1 | 2 | 3 => cases h; decide
    | 0 | _ + 4 => cases h
  child := by decide
  parent := by
    intro c hc p hp
    fin_cases hc <;> cases hp <;> decide
  top := ⟨0, by decide⟩

theorem forkedPair_commonAncestor :
    ∃ m, forkedPair_nodeTree.blocks.LastCommon 1 2 m ∧
      Answers (commonAncestor 2 3) ((forkedPair.heap m).root, (forkedPair.heap m).slot)
        { toStore := forkedPair } ∧
      Answers (commonAncestor 3 2) ((forkedPair.heap m).root, (forkedPair.heap m).slot)
        { toStore := forkedPair } :=
  commonAncestor_lastCommon (w := { toStore := forkedPair }) forkedPair_nodeTree rfl rfl

section Viable

variable {f : ForkChoice} {nodes : Finset Nat} (tree : NodeTree f.toStore nodes)

/-- The walk of `AncestorRoot` stops at the last block up to the slot, if there is one. -/
theorem ancestorLoop_eq (slot : Nat) {fuel n : Nat} (hn : n ∈ nodes)
    (hfuel : (f.heap n).slot < fuel) :
    ancestorLoop slot fuel n { toForkChoice := f } =
      match tree.blocks.lastBefore n (slot + 1) with
      | some m => .ok m { toForkChoice := f }
      | none => .error (.wrap "could not determine ancestor root" .nilNode)
          { toForkChoice := f } := by
  induction fuel generalizing n with
  | zero => omega
  | succ fuel ih =>
    by_cases hlt : slot < (f.heap n).slot
    · cases hparent : (f.heap n).parent with
      | none =>
        rw [lastBefore_of_no_parent hlt ((tree.blocks_parent hn).trans hparent)]
        simp [ancestorLoop, hlt, hparent, bind_run, ctxErr]
      | some p =>
        obtain ⟨hp, -, hslot⟩ := tree.parent n hn p hparent
        rw [lastBefore_of_parent hlt ((tree.blocks_parent hn).trans hparent),
          ← ih hp (by omega)]
        simp [ancestorLoop, hlt, hparent, bind_run, ctxErr]
    · rw [lastBefore_of_lt (t := tree.blocks) (Nat.lt_succ_of_le (not_lt.1 hlt))]
      simp [ancestorLoop, hlt]

theorem ancestorRoot_eq_ok_iff (live : ∀ i ∈ nodes, f.Live i) {slot r r' leaf n : Nat}
    (hleaf : f.nodeByRoot r = some leaf) (hn : f.nodeByRoot r' = some n) :
    ancestorRoot r slot { toForkChoice := f } = .ok r' { toForkChoice := f } ↔
      tree.blocks.lastBefore leaf (slot + 1) = some n := by
  have hmem := (tree.mapped r leaf hleaf).1
  have hrun := ancestorLoop_eq tree slot hmem (Nat.lt_succ_self _)
  unfold ancestorRoot
  simp only [get_bind_run, hleaf]
  rw [bind_run, hrun]
  cases hlast : tree.blocks.lastBefore leaf (slot + 1) with
  | none => simp
  | some m =>
    have hm := live m (tree.mem_of_ancestor hmem (lastBefore_eq_some hlast).1)
    have hroot : (f.heap m).root = r' ↔ m = n := by
      constructor
      · rintro rfl
        exact Option.some.inj (hm.symm.trans hn)
      · rintro rfl
        exact (tree.mapped r' m hn).2
    simpa using hroot

/-- The node and its children show whether it is the last block up to a slot for some leaf. -/
theorem lastBefore_leaf_iff {start n : Nat} (hn : n ∈ nodes) (hle : (f.heap n).slot ≤ start) :
    (∃ leaf ∈ nodes, (f.heap leaf).children = [] ∧
        tree.blocks.lastBefore leaf (start + 1) = some n) ↔
      (f.heap n).children = [] ∨ ∃ c ∈ (f.heap n).children, start < (f.heap c).slot := by
  constructor
  · rintro ⟨leaf, hleaf, hnil, hlast⟩
    obtain ⟨hbelow, -, hlatest⟩ := lastBefore_eq_some hlast
    rcases hbelow.eq_or_child with rfl | ⟨c, hparent, hcbelow⟩
    · exact .inl hnil
    · have hcmem := tree.mem_of_ancestor hleaf hcbelow
      obtain ⟨-, hc, hlt⟩ := tree.parent c hcmem n ((tree.blocks_parent hcmem).symm.trans hparent)
      refine .inr ⟨c, hc, not_le.1 fun hearly => ?_⟩
      -- a child up to the slot would come after the last such block
      have := (hlatest c hcbelow (Nat.lt_succ_of_le hearly)).slot_le
      exact absurd hlt (not_lt.2 this)
  · rintro (hnil | ⟨c, hc, hslot⟩)
    · exact ⟨n, hn, hnil, lastBefore_of_lt (Nat.lt_succ_of_le hle)⟩
    · obtain ⟨hcmem, hparent⟩ := tree.child n hn c hc
      obtain ⟨leaf, hleaf, hnil, hbelow⟩ := tree.exists_leaf hcmem
      refine ⟨leaf, hleaf, hnil, ?_⟩
      rw [hbelow.lastBefore_eq hslot,
        lastBefore_of_parent hslot ((tree.blocks_parent hcmem).trans hparent)]
      exact lastBefore_of_lt (Nat.lt_succ_of_le hle)

include tree in
/-- The verdict on a node that is not after the epoch start. In its first slot, all children
come after it. -/
theorem isViableForCheckpoint_eq (cfg : BeaconChainConfig) {cp : Checkpoint} {start n : Nat}
    (hstart : epochStart cfg cp.epoch = some start) (hn : f.nodeByRoot cp.root = some n)
    (hle : (f.heap n).slot ≤ start) :
    f.isViableForCheckpoint cfg true cp = .ok (decide ((f.heap n).children = [] ∨
      ∃ c ∈ (f.heap n).children, start < (f.heap c).slot)) := by
  have hafter : ∀ c ∈ (f.heap n).children, (f.heap n).slot < (f.heap c).slot := by
    intro c hc
    obtain ⟨hcmem, hparent⟩ := tree.child n (tree.mapped _ n hn).1 c hc
    exact (tree.parent c hcmem n hparent).2.2
  unfold Store.isViableForCheckpoint
  simp only [hn, hstart, if_neg (not_lt.2 hle)]
  by_cases hnil : (f.heap n).children = []
  · simp [hnil]
  · by_cases hfirst : (f.heap n).slot = start
    · obtain ⟨c, hc⟩ := List.exists_mem_of_ne_nil _ hnil
      have : start < (f.heap c).slot := hfirst ▸ hafter c hc
      simpa [hnil, hfirst] using ⟨c, hc, this⟩
    · simp [hnil, hfirst, List.any_eq]

/-- With unviable attestations ignored, a checkpoint is viable exactly if its root is in the
store, not after the epoch start, and the last block up to the epoch start for some leaf. If all
nodes of the tree are in the map, this is what `AncestorRoot` returns for that leaf. -/
theorem isViableForCheckpoint_iff (cfg : BeaconChainConfig) (cp : Checkpoint) {start : Nat}
    (hstart : epochStart cfg cp.epoch = some start) :
    ∃ viable, f.isViableForCheckpoint cfg true cp = .ok viable ∧
      (viable = true ↔ ∃ n, f.nodeByRoot cp.root = some n ∧ (f.heap n).slot ≤ start ∧
        ∃ leaf ∈ nodes, (f.heap leaf).children = [] ∧
          tree.blocks.lastBefore leaf (start + 1) = some n) ∧
      ((∀ i ∈ nodes, f.Live i) → (viable = true ↔
        ∃ n, f.nodeByRoot cp.root = some n ∧ (f.heap n).slot ≤ start ∧
          ∃ r leaf, f.nodeByRoot r = some leaf ∧ (f.heap leaf).children = [] ∧
            ancestorRoot r start { toForkChoice := f } = .ok cp.root { toForkChoice := f })) := by
  cases hn : f.nodeByRoot cp.root with
  | none => exact ⟨false, by simp [Store.isViableForCheckpoint, hn], by simp, by simp⟩
  | some n =>
    by_cases hle : (f.heap n).slot ≤ start
    · have hleaf := lastBefore_leaf_iff tree (tree.mapped _ n hn).1 hle
      refine ⟨_, isViableForCheckpoint_eq tree cfg hstart hn hle, ?_, fun live => ?_⟩
      · simp [hle, hleaf]
      · rw [decide_eq_true_iff, ← hleaf]
        constructor
        · rintro ⟨leaf, hmem, hnil, hlast⟩
          exact ⟨n, rfl, hle, _, leaf, live leaf hmem, hnil,
            (ancestorRoot_eq_ok_iff tree live (live leaf hmem) hn).2 hlast⟩
        · rintro ⟨-, -, -, r, leaf, hr, hnil, hrun⟩
          exact ⟨leaf, (tree.mapped r leaf hr).1, hnil,
            (ancestorRoot_eq_ok_iff tree live hr hn).1 hrun⟩
    · refine ⟨false, ?_, ?_, fun _ => ?_⟩
      · simp [Store.isViableForCheckpoint, hn, hstart, not_le.1 hle]
      · simp [hle]
      · simp [hle]

theorem forkedPair_viable :
    ∃ viable, forkedPair.isViableForCheckpoint {} true ⟨1, 1⟩ = .ok viable ∧
      (viable = true ↔ ∃ n, forkedPair.nodeByRoot 1 = some n ∧ (forkedPair.heap n).slot ≤ 32 ∧
        ∃ leaf ∈ ({0, 1, 2} : Finset Nat), (forkedPair.heap leaf).children = [] ∧
          forkedPair_nodeTree.blocks.lastBefore leaf (32 + 1) = some n) := by
  obtain ⟨viable, hrun, hiff, -⟩ := isViableForCheckpoint_iff (f := { toStore := forkedPair })
    forkedPair_nodeTree {} ⟨1, 1⟩ (show epochStart {} 1 = some 32 by decide)
  exact ⟨viable, hrun, hiff⟩

end Viable

end LightChain.DoublyLinkedTree

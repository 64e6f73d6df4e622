import LightChain.ForkChoice.Stable
import LightChain.Library.Forest

/-!
# The block tree

`IsTree` says that the map and the lists of children describe one tree. Inserting a block keeps
it, and `IsTree.restrict` says when the tree without a set of nodes is a tree again.
-/
namespace LightChain.DoublyLinkedTree
open Library Program

section IsTree

def Store.Live (s : Store) (i : Nat) : Prop := s.nodeByRoot (s.heap i).root = some i

instance (s : Store) (i : Nat) : Decidable (s.Live i) :=
  inferInstanceAs (Decidable (s.nodeByRoot (s.heap i).root = some i))

structure IsTree (s : Store) : Prop where
  allocated : Allocated s
  root : ∀ t, s.treeRootNode = some t → s.Live t ∧ (s.heap t).parent = none
  parent : ∀ i, s.Live i → s.treeRootNode = some i ∨
    ∃ p, (s.heap i).parent = some p ∧ s.Live p ∧ i ∈ (s.heap p).children
  children : ∀ p, s.Live p → ∀ c ∈ (s.heap p).children, s.Live c ∧ (s.heap c).parent = some p
  nodup : ∀ p, s.Live p → (s.heap p).children.Nodup

def Store.kids (s : Store) (p : Nat) : List Nat := if s.Live p then (s.heap p).children else []

variable {s s' : Store}

theorem Allocated.live (h : Allocated s) {r i : Nat} (hi : s.nodeByRoot r = some i) : s.Live i := by
  rw [Store.Live, (h.keyed r i hi).1]
  exact hi

theorem Allocated.lt_of_live (h : Allocated s) {i : Nat} (hi : s.Live i) : i < s.next :=
  (h.keyed _ i hi).2

theorem kids_of_live {p : Nat} (h : s.Live p) : s.kids p = (s.heap p).children := if_pos h

theorem mem_kids {p c : Nat} : c ∈ s.kids p ↔ s.Live p ∧ c ∈ (s.heap p).children := by
  unfold Store.kids
  split_ifs with h <;> simp [h]

namespace IsTree

section

variable (h : IsTree s)

include h

theorem forest : Forest s.kids id where
  lt hc := (h.allocated.children _ _ (mem_kids.1 hc).2).1
  unique hp hq := by
    rw [mem_kids] at hp hq
    have hparent := (h.children _ hp.1 _ hp.2).2
    rw [(h.children _ hq.1 _ hq.2).2] at hparent
    exact (Option.some.inj hparent).symm
  nodup p := by
    unfold Store.kids
    split_ifs with hp
    · exact h.nodup p hp
    · exact List.nodup_nil

theorem closed_live : Closed s.kids {i | s.Live i} := fun p _ c hc =>
  (h.children p (mem_kids.1 hc).1 c (mem_kids.1 hc).2).1

theorem live_of_mem_subtree {n i : Nat} (hn : s.Live n) (hi : i ∈ subtree s.kids n) :
    s.Live i := subtree_subset h.closed_live hn hi

theorem mem_subtree_root {t i : Nat} (ht : s.treeRootNode = some t) (hi : s.Live i) :
    i ∈ subtree s.kids t := by
  -- Parents are allocated before their children.
  induction i using Nat.strong_induction_on with
  | h i ih =>
    rcases h.parent i hi with hroot | ⟨p, hp, hlive, hmem⟩
    · rw [ht] at hroot
      cases hroot
      exact self_mem_subtree t
    · have hlt := (h.allocated.parent i p hp).1
      exact (ih p hlt hlive).tail (mem_kids.2 ⟨hlive, hmem⟩)

theorem of_sameTree (hs : SameTree s s') : IsTree s' := by
  have hlive : ∀ i, s'.Live i ↔ s.Live i := by
    intro i
    rw [Store.Live, Store.Live, hs.map, (hs.node i).1]
  have hparent : ∀ i, (s'.heap i).parent = (s.heap i).parent := fun i => (hs.node i).2.2.1
  have hchildren : ∀ i, (s'.heap i).children = (s.heap i).children := fun i => (hs.node i).2.2.2
  refine ⟨h.allocated.of_sameShape hs.sameShape, ?_, ?_, ?_, ?_⟩
  all_goals simp only [hlive, hparent, hchildren, hs.rooted]
  · exact h.root
  · exact h.parent
  · exact h.children
  · exact h.nodup

theorem mem_children {i p : Nat} (hi : s.Live i) (hp : (s.heap i).parent = some p) :
    i ∈ (s.heap p).children := by
  rcases h.parent i hi with hr | ⟨q, hq, -, hmem⟩
  · cases hp.symm.trans (h.root i hr).2
  · cases hp.symm.trans hq
    exact hmem

theorem live_parent {i p : Nat} (hi : s.Live i) (hp : (s.heap i).parent = some p) : s.Live p := by
  rcases h.parent i hi with hr | ⟨q, hq, hlq, -⟩
  · cases hp.symm.trans (h.root i hr).2
  · cases hp.symm.trans hq
    exact hlq

theorem restrict (hshape : SameShape s s') {S : Set Nat} (hlive : ∀ i, s'.Live i ↔ s.Live i ∧ i ∉ S)
    (hchildren : ∀ p, s.Live p → p ∉ S →
      (s'.heap p).children.Nodup ∧ ∀ c, c ∈ (s'.heap p).children ↔ c ∈ (s.heap p).children ∧ c ∉ S)
    (hroot : ∀ t, s'.treeRootNode = some t → s.Live t ∧ t ∉ S ∧ (s'.heap t).parent = none)
    (hup : ∀ i, s.Live i → i ∉ S → s'.treeRootNode = some i ∨ ∃ p, (s.heap i).parent = some p ∧ p ∉ S)
    (hparent : ∀ i p, s.Live i → i ∉ S → (s.heap i).parent = some p → p ∉ S →
      (s'.heap i).parent = some p) : IsTree s' := by
  refine ⟨h.allocated.of_sameShape hshape, fun t ht => ?_, fun i hi => ?_, fun p hp c hc => ?_,
    fun p hp => ?_⟩
  · obtain ⟨hlt, hS, hnone⟩ := hroot t ht
    exact ⟨(hlive t).2 ⟨hlt, hS⟩, hnone⟩
  · obtain ⟨hi, hiS⟩ := (hlive i).1 hi
    rcases hup i hi hiS with hr | ⟨p, hp, hpS⟩
    · exact .inl hr
    · rcases h.parent i hi with hr | ⟨q, hq, hlq, hmem⟩
      · rw [(h.root i hr).2] at hp
        cases hp
      · cases hp.symm.trans hq
        exact .inr ⟨p, hparent i p hi hiS hp hpS, (hlive p).2 ⟨hlq, hpS⟩,
          ((hchildren p hlq hpS).2 i).2 ⟨hmem, hiS⟩⟩
  · obtain ⟨hp, hpS⟩ := (hlive p).1 hp
    obtain ⟨hc, hcS⟩ := ((hchildren p hp hpS).2 c).1 hc
    obtain ⟨hlc, hpc⟩ := h.children p hp c hc
    exact ⟨(hlive c).2 ⟨hlc, hcS⟩, hparent c p hlc hcS hpc hpS⟩
  · obtain ⟨hp, hpS⟩ := (hlive p).1 hp
    exact (hchildren p hp hpS).1

end

end IsTree

theorem Store.Live.eq_of_root {i j : Nat} (hi : s.Live i) (hj : s.Live j)
    (h : (s.heap i).root = (s.heap j).root) : i = j := by
  rw [Store.Live, h] at hi
  exact Option.some.inj (hi.symm.trans hj)

theorem live_iff_of_erased {S : Set Nat} (hroot : ∀ i, (s'.heap i).root = (s.heap i).root)
    (hS : ∀ i ∈ S, s.Live i) (hgone : ∀ i ∈ S, s'.nodeByRoot (s.heap i).root = none)
    (hkept : ∀ r, (∀ i ∈ S, (s.heap i).root ≠ r) → s'.nodeByRoot r = s.nodeByRoot r) (i : Nat) :
    s'.Live i ↔ s.Live i ∧ i ∉ S := by
  rw [Store.Live, hroot]
  by_cases hi : ∃ j ∈ S, (s.heap j).root = (s.heap i).root
  · obtain ⟨j, hj, hji⟩ := hi
    rw [← hji, hgone j hj]
    refine ⟨nofun, fun ⟨hi, hiS⟩ => ?_⟩
    exact absurd ((hS j hj).eq_of_root hi hji ▸ hj) hiS
  · rw [hkept _ fun j hj hji => hi ⟨j, hj, hji⟩]
    exact ⟨fun hl => ⟨hl, fun hiS => hi ⟨i, hiS, rfl⟩⟩, And.left⟩

end IsTree

section Grows

variable {cfg : BeaconChainConfig} {block : Block} {justifiedEpoch finalizedEpoch : Nat}
  {w w' : World}

theorem Grows.live_iff (hg : Grows cfg block justifiedEpoch finalizedEpoch w w')
    (i : Nat) : w'.Live i ↔ i = w.next ∨ w.Live i := by
  obtain ⟨payloadHash, hnew⟩ := hg.new
  by_cases hi : i = w.next
  · simp [hi, Store.Live, hg.map, hnew, Store.newNode]
  · have hroot : (w'.heap i).root = (w.heap i).root := by rw [hg.old i hi]
    rw [Store.Live, Store.Live, hg.map, hroot, Function.update_apply]
    split_ifs with hr
    · simp [hi, Ne.symm hi, hr, hg.fresh]
    · simp [hi]

theorem IsTree.grows (h : IsTree w.toStore)
    (hg : Grows cfg block justifiedEpoch finalizedEpoch w w') : IsTree w'.toStore := by
  obtain ⟨payloadHash, hnew⟩ := hg.new
  have hne : ∀ {i}, w.Live i → i ≠ w.next := fun hi => (h.allocated.lt_of_live hi).ne
  have hchild : ∀ {p c}, c ∈ (w.heap p).children → c ≠ w.next := fun hc =>
    (h.allocated.children _ _ hc).2.ne
  refine ⟨h.allocated.grows hg, fun t ht => ?_, fun i hi => ?_, fun p hp c hc => ?_,
    fun p hp => ?_⟩
  · rcases hg.root with ⟨parent, -, hroot, -⟩ | ⟨hparent, -, hroot, -⟩
    · rw [hroot] at ht
      obtain ⟨hlive, hnone⟩ := h.root t ht
      rw [hg.live_iff, hg.old t (hne hlive)]
      exact ⟨.inr hlive, hnone⟩
    · rw [hroot] at ht
      cases ht
      rw [hg.live_iff, hnew]
      exact ⟨.inl rfl, hparent⟩
  · rcases (hg.live_iff i).1 hi with rfl | hlive
    · rcases hg.root with ⟨parent, hparent, -⟩ | ⟨-, -, hroot, -⟩
      · have hp := h.allocated.live hparent
        refine .inr ⟨parent, by rw [hnew]; exact hparent, (hg.live_iff _).2 (.inr hp), ?_⟩
        rw [hg.old parent (hne hp)]
        simp [hparent]
      · exact .inl hroot
    · rw [hg.old i (hne hlive)]
      rcases h.parent i hlive with hroot | ⟨p, hp, hplive, hmem⟩
      · rcases hg.root with ⟨-, -, hroot', -⟩ | ⟨-, hnone, -⟩
        · exact .inl (hroot'.trans hroot)
        · cases hnone.symm.trans hroot
      · refine .inr ⟨p, hp, (hg.live_iff p).2 (.inr hplive), ?_⟩
        rw [hg.old p (hne hplive)]
        exact List.mem_append_left _ hmem
  · rcases (hg.live_iff p).1 hp with rfl | hlive
    · rw [hnew] at hc
      cases hc
    · rw [hg.old p (hne hlive)] at hc
      rcases List.mem_append.1 hc with hc | hc
      · obtain ⟨hclive, hparent⟩ := h.children p hlive c hc
        rw [hg.live_iff, hg.old c (hchild hc)]
        exact ⟨.inr hclive, hparent⟩
      · split_ifs at hc with hparent
        · rw [List.mem_singleton.1 hc, hg.live_iff, hnew]
          exact ⟨.inl rfl, hparent⟩
        · cases hc
  · rcases (hg.live_iff p).1 hp with rfl | hlive
    · rw [hnew]
      exact List.nodup_nil
    · rw [hg.old p (hne hlive)]
      refine (h.nodup p hlive).append (by split_ifs <;> simp) ?_
      split_ifs
      · exact List.disjoint_singleton.2 fun hmem => hchild hmem rfl
      · exact List.disjoint_nil_right _

end Grows

end LightChain.DoublyLinkedTree

import LightChain.Library.Program

/-!
# Traversals of a forest

A forest is given by the children of its nodes. A traversal visits the subtrees of the children
one after the other and then the node itself. What a visit does to the state is a relation that
is indexed by the set of nodes it touches: a `Footprint` composes over disjoint sets, and
`foldlM_does` composes the visits of the children.
-/
namespace LightChain.Library

open Relation Program List

section Forest

variable {α : Type}

/-- Each node is listed once and after its parent, as far as `rank` tells. -/
structure Forest (kids : α → List α) (rank : α → Nat) : Prop where
  lt : ∀ {p c}, c ∈ kids p → rank p < rank c
  unique : ∀ {p q c}, c ∈ kids p → c ∈ kids q → p = q
  nodup : ∀ p, (kids p).Nodup

variable {kids : α → List α} {rank : α → Nat}

def subtree (kids : α → List α) (n : α) : Set α := {i | ReflTransGen (fun p c => c ∈ kids p) n i}

def subtrees (kids : α → List α) (cs : List α) : Set α := {i | ∃ c ∈ cs, i ∈ subtree kids c}

/-- With a node, the set has its children. -/
def Closed (kids : α → List α) (S : Set α) : Prop := ∀ p ∈ S, ∀ c ∈ kids p, c ∈ S

theorem self_mem_subtree (n : α) : n ∈ subtree kids n := ReflTransGen.refl

theorem closed_subtree (n : α) : Closed kids (subtree kids n) := fun _ hp _ hc => hp.tail hc

theorem closed_subtrees (cs : List α) : Closed kids (subtrees kids cs) :=
  fun p ⟨c, hc, hp⟩ d hd => ⟨c, hc, closed_subtree c p hp d hd⟩

theorem subtree_subset {n : α} {S : Set α} (hS : Closed kids S) (hn : n ∈ S) :
    subtree kids n ⊆ S := by
  intro i hi
  induction hi with
  | refl => exact hn
  | tail _ hc ih => exact hS _ ih _ hc

theorem subtree_eq (n : α) : subtree kids n = subtrees kids (kids n) ∪ {n} := by
  ext i
  constructor
  · intro hi
    rcases ReflTransGen.cases_head hi with rfl | ⟨c, hc, hi⟩
    · exact .inr rfl
    · exact .inl ⟨c, hc, hi⟩
  · rintro (⟨c, hc, hi⟩ | rfl)
    · exact ReflTransGen.head hc hi
    · exact self_mem_subtree i

@[simp] theorem subtrees_nil : subtrees kids [] = ∅ := by
  ext i
  simp [subtrees]

theorem subtrees_cons (c : α) (cs : List α) :
    subtrees kids (c :: cs) = subtree kids c ∪ subtrees kids cs := by
  ext i
  simp [subtrees]

namespace Forest

variable (h : Forest kids rank)
include h

theorem rank_le {n i : α} (hi : i ∈ subtree kids n) : rank n ≤ rank i := by
  induction hi with
  | refl => exact le_rfl
  | tail _ hc ih => exact ih.trans (h.lt hc).le

theorem not_mem_subtrees (n : α) : n ∉ subtrees kids (kids n) := by
  rintro ⟨c, hc, hn⟩
  have := h.rank_le hn
  have := h.lt hc
  omega

theorem subtree_total {a b i : α} (ha : i ∈ subtree kids a) (hb : i ∈ subtree kids b) :
    b ∈ subtree kids a ∨ a ∈ subtree kids b := by
  have hunique : Relator.RightUnique (Function.swap fun p c => c ∈ kids p) :=
    fun _ _ _ hp hq => h.unique hp hq
  rcases ReflTransGen.total_of_right_unique hunique ha.swap hb.swap with hab | hba
  · exact .inr hab.swap
  · exact .inl hba.swap

theorem eq_of_sibling {n c d : α} (hc : c ∈ kids n) (hd : d ∈ kids n)
    (hcd : d ∈ subtree kids c) : c = d := by
  rcases ReflTransGen.cases_tail hcd with rfl | ⟨p, hp, hdp⟩
  · rfl
  · have hle := h.rank_le hp
    have hlt := h.lt hc
    rw [h.unique hdp hd] at hle
    omega

theorem disjoint_siblings {n c d : α} (hc : c ∈ kids n) (hd : d ∈ kids n) (hne : c ≠ d) :
    Disjoint (subtree kids c) (subtree kids d) := by
  rw [Set.disjoint_left]
  intro i hic hid
  rcases h.subtree_total hic hid with hcd | hdc
  · exact hne (h.eq_of_sibling hc hd hcd)
  · exact hne (h.eq_of_sibling hd hc hdc).symm

theorem pairwise_disjoint (n : α) :
    (kids n).Pairwise fun c d => Disjoint (subtree kids c) (subtree kids d) :=
  (h.nodup n).imp_of_mem fun hc hd hne => h.disjoint_siblings hc hd hne

end Forest

/-- The recursion over a subtree ends within `fuel` calls. -/
def Fits (kids : α → List α) (rank : α → Nat) (fuel : Nat) (n : α) : Prop :=
  ∀ i ∈ subtree kids n, rank i < rank n + fuel

variable {fuel : Nat}

theorem Fits.ne_zero {n : α} (h : Fits kids rank fuel n) : fuel ≠ 0 := by
  have := h n (self_mem_subtree n)
  omega

theorem Fits.child (hf : Forest kids rank) {n c : α} (h : Fits kids rank (fuel + 1) n)
    (hc : c ∈ kids n) : Fits kids rank fuel c := by
  intro i hi
  have := h i (ReflTransGen.head hc hi)
  have := hf.lt hc
  omega

/-- A subtree, the descendants of a node before it. -/
def postorder (kids : α → List α) : Nat → α → List α
  | 0, _ => []
  | fuel + 1, n => (kids n).flatMap (postorder kids fuel) ++ [n]

theorem mem_postorder (hf : Forest kids rank) {n i : α} (h : Fits kids rank fuel n) :
    i ∈ postorder kids fuel n ↔ i ∈ subtree kids n := by
  induction fuel generalizing n with
  | zero => exact absurd rfl h.ne_zero
  | succ fuel ih =>
    rw [postorder, subtree_eq, mem_append, mem_flatMap, mem_singleton]
    refine or_congr ⟨?_, ?_⟩ Iff.rfl
    · rintro ⟨c, hc, hi⟩
      exact ⟨c, hc, (ih (h.child hf hc)).1 hi⟩
    · rintro ⟨c, hc, hi⟩
      exact ⟨c, hc, (ih (h.child hf hc)).2 hi⟩

section StopAt

variable [DecidableEq α]

/-- The forest without what lies below a node. -/
def stopAt (kids : α → List α) (f : α) (p : α) : List α := if p = f then [] else kids p

theorem mem_stopAt {f p c : α} : c ∈ stopAt kids f p ↔ p ≠ f ∧ c ∈ kids p := by
  unfold stopAt
  split_ifs with h <;> simp [h]

theorem Forest.stopAt (h : Forest kids rank) (f : α) : Forest (stopAt kids f) rank where
  lt hc := h.lt (mem_stopAt.1 hc).2
  unique hp hq := h.unique (mem_stopAt.1 hp).2 (mem_stopAt.1 hq).2
  nodup p := by
    unfold Library.stopAt
    split_ifs
    · exact nodup_nil
    · exact h.nodup p

theorem subtree_stopAt_subset (f n : α) : subtree (stopAt kids f) n ⊆ subtree kids n :=
  subtree_subset (fun p hp c hc => closed_subtree n p hp c (mem_stopAt.1 hc).2)
    (self_mem_subtree n)

theorem mem_subtree_stopAt {f n i : α} (hi : i ∈ subtree kids n) :
    i ∈ subtree (stopAt kids f) n ∨ i ∈ subtree kids f := by
  induction hi with
  | refl => exact .inl (self_mem_subtree n)
  | @tail p c _ hc ih =>
    by_cases hp : p = f
    · exact .inr (hp ▸ ReflTransGen.single hc)
    · exact ih.imp (fun h => h.tail (mem_stopAt.2 ⟨hp, hc⟩)) fun h => h.tail hc

end StopAt

section Choice

/-- From the nodes of `S`, `tip` follows the chosen children as far as there is a choice. -/
structure Follows (kids : α → List α) (S : Set α) (choice : α → Option α) (tip : α → α) :
    Prop where
  closed : Closed kids S
  mem : ∀ {p c}, p ∈ S → choice p = some c → c ∈ kids p
  stop : ∀ {p}, p ∈ S → choice p = none → tip p = p
  next : ∀ {p c}, p ∈ S → choice p = some c → tip p = tip c

namespace Follows

variable {S : Set α} {choice : α → Option α} {tip : α → α} {bound : Nat}
variable (h : Follows kids S choice tip) (hf : Forest kids rank) (hbound : ∀ i ∈ S, rank i < bound)
include h hf hbound

theorem tip_mem {p : α} (hp : p ∈ S) : tip p ∈ subtree kids p := by
  -- Children have a greater rank.
  induction hk : bound - rank p using Nat.strong_induction_on generalizing p with
  | h k ih =>
    cases hc : choice p with
    | none =>
      rw [h.stop hp hc]
      exact self_mem_subtree p
    | some c =>
      have hmem := h.mem hp hc
      have hcS := h.closed p hp c hmem
      have hlt := hf.lt hmem
      have hcb := hbound c hcS
      rw [h.next hp hc]
      exact (ih (bound - rank c) (by omega) hcS rfl).head hmem

theorem choice_eq {p c : α} (hp : p ∈ S) (hc : c ∈ kids p) (htip : tip p ∈ subtree kids c) :
    choice p = some c := by
  cases hd : choice p with
  | none =>
    rw [h.stop hp hd] at htip
    exact absurd (hf.rank_le htip) (Nat.not_le.2 (hf.lt hc))
  | some d =>
    have hmem := h.mem hp hd
    rw [h.next hp hd] at htip
    have htip' := h.tip_mem hf hbound (h.closed p hp d hmem)
    by_contra hne
    have hdc : d ≠ c := fun heq => hne (congrArg some heq)
    exact Set.disjoint_left.1 (hf.disjoint_siblings hmem hc hdc) htip' htip

theorem tip_between {p m : α} (hp : p ∈ S) (hm : m ∈ subtree kids p)
    (htip : tip p ∈ subtree kids m) : tip m = tip p := by
  induction hm using ReflTransGen.head_induction_on with
  | refl => rfl
  | @head p c hc hcm ih =>
    have hchoice := h.choice_eq hf hbound hp hc (hcm.trans htip)
    rw [h.next hp hchoice] at htip ⊢
    exact ih (h.closed p hp c hc) htip

theorem choice_tip {p : α} (hp : p ∈ S) : choice (tip p) = none := by
  have hmem := h.tip_mem hf hbound hp
  have hS : tip p ∈ S := subtree_subset h.closed hp hmem
  have htip : tip (tip p) = tip p := h.tip_between hf hbound hp hmem (self_mem_subtree _)
  cases hc : choice (tip p) with
  | none => rfl
  | some c =>
    have hlt := hf.lt (h.mem hS hc)
    have hbelow := h.tip_mem hf hbound (h.closed _ hS c (h.mem hS hc))
    rw [← h.next hS hc, htip] at hbelow
    exact absurd (hf.rank_le hbelow) (Nat.not_le.2 hlt)

theorem tip_eq_iff_mem {j : α} (hj : j ∈ S) :
    (∀ i ∈ S, tip i = tip j ↔ tip j ∈ subtree kids i) ↔
      ∀ p ∈ S, ∀ c ∈ kids p, j ∈ subtree kids c → choice p = some c := by
  have hbelow := h.tip_mem hf hbound hj
  constructor
  · intro hiff p hp c hc hjc
    have htip := (hiff p hp).2 ((ReflTransGen.single hc).trans (hjc.trans hbelow))
    refine h.choice_eq hf hbound hp hc ?_
    rw [htip]
    exact hjc.trans hbelow
  · intro hchoice i hi
    refine ⟨fun htip => htip ▸ h.tip_mem hf hbound hi, fun hmem => ?_⟩
    rcases hf.subtree_total hbelow hmem with hij | hji
    · exact h.tip_between hf hbound hj hij hmem
    · -- On the way down to `j` every choice is the next node.
      clear hmem
      induction hji using ReflTransGen.head_induction_on with
      | refl => rfl
      | @head p c hc hcj ih =>
        rw [h.next hi (hchoice p hi c hc hcj)]
        exact ih (h.closed p hi c hc)

end Follows

end Choice

end Forest

section Traversal

variable {α σ ε γ : Type} {kids : α → List α}

/-- Effects on disjoint sets of nodes compose, the first set having the children of its nodes. -/
structure Footprint (kids : α → List α) (Does : Set α → σ → σ → Prop) : Prop where
  refl : ∀ s, Does ∅ s s
  comp : ∀ {S T s t u}, Closed kids S → Disjoint S T → Does S s t → Does T t u → Does (S ∪ T) s u

/-- The visits of siblings. A visit may rely on finding its own subtree untouched, and its
result is `g` at any later state. -/
theorem foldlM_does {Does : Set α → σ → σ → Prop} (hd : Footprint kids Does)
    {f : γ → α → EStateM ε σ γ} {g : σ → γ → α → γ} {cs : List α} {s : σ}
    (hcs : cs.Pairwise fun c d => Disjoint (subtree kids c) (subtree kids d))
    (hg : ∀ {T t u a c}, c ∈ cs → Disjoint (subtree kids c) T → Does T t u → g u a c = g t a c)
    (hstep : ∀ {S t} a, ∀ c ∈ cs, Disjoint S (subtree kids c) → Does S s t →
      ∃ t', f a c t = .ok (g t' a c) t' ∧ Does (subtree kids c) t t') (a : γ) :
    ∃ s', cs.foldlM f a s = .ok (cs.foldl (g s') a) s' ∧ Does (subtrees kids cs) s s' := by
  -- The visits so far have touched a closed set that the rest of the list avoids.
  suffices hrest : ∀ {S t} a, Closed kids S → Disjoint S (subtrees kids cs) → Does S s t →
      ∃ s', cs.foldlM f a t = .ok (cs.foldl (g s') a) s' ∧ Does (subtrees kids cs) t s' by
    refine hrest a (fun _ h => h.elim) (Set.empty_disjoint _) (hd.refl s)
  intro S t a hS hdisjoint hdoes
  induction cs generalizing S t a with
  | nil => exact ⟨t, rfl, by rw [subtrees_nil]; exact hd.refl t⟩
  | cons c cs ih =>
    obtain ⟨hc, hcs⟩ := pairwise_cons.1 hcs
    rw [subtrees_cons, Set.disjoint_union_right] at hdisjoint
    obtain ⟨u, hrun, hu⟩ := hstep a c mem_cons_self hdisjoint.1 hdoes
    have hafter : Disjoint (subtree kids c) (subtrees kids cs) := by
      rw [Set.disjoint_left]
      rintro i hi ⟨d, hd, hid⟩
      exact Set.disjoint_left.1 (hc d hd) hi hid
    have hclosed : Closed kids (S ∪ subtree kids c) := by
      rintro p (hp | hp) d hd
      · exact .inl (hS p hp d hd)
      · exact .inr (closed_subtree c p hp d hd)
    obtain ⟨s', hfold, hs'⟩ := ih hcs (fun hmem => hg (mem_cons_of_mem _ hmem))
      (fun a d hd => hstep a d (mem_cons_of_mem _ hd)) (g u a c) hclosed
      (Set.disjoint_union_left.2 ⟨hdisjoint.2, hafter⟩) (hd.comp hS hdisjoint.1 hdoes hu)
    refine ⟨s', ?_, ?_⟩
    · rw [foldlM_cons, bind_of_ok hrun, hfold, foldl_cons,
        hg mem_cons_self hafter hs']
    · rw [subtrees_cons]
      exact hd.comp (closed_subtree c) hafter hu hs'

end Traversal

end LightChain.Library

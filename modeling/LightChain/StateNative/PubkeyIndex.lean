import Mathlib

/-!
# The index of a public key

`ValidatorIndexByPubkey` reads a map from public keys to indexes. `Copy` shares the map
between the states, and `AppendValidator` writes to it for all of them. A state only
compares the index with the length of its own registry.

`alwaysPrivate_iff` says which runs keep the answers of all states right: those whose
every `AppendValidator` fits (`Op.Fits`), that is, the new index belongs to no other key
of the map, and every state of the map that knows the key or the index agrees.
-/
namespace LightChain.StateNative
open List Option Function

variable {Key : Type} [DecidableEq Key]

/-- `ValidatorIndexMap`. -/
def validatorIndexMap (keys : List Key) : Key → Option Nat :=
  keys.zipIdx.foldl (fun m entry => Function.update m entry.1 (some entry.2)) fun _ => none

theorem validatorIndexMap_concat (keys : List Key) (key : Key) :
    validatorIndexMap (keys ++ [key]) =
      Function.update (validatorIndexMap keys) key (some keys.length) := by
  simp [validatorIndexMap, zipIdx_append]

omit [DecidableEq Key] in
theorem getElem?_concat_eq_some {keys : List Key} {last key : Key} {i : Nat} :
    (keys ++ [last])[i]? = some key ↔
      keys[i]? = some key ∨ i = keys.length ∧ last = key := by
  grind

theorem validatorIndexMap_eq_some {keys : List Key} (hnodup : keys.Nodup) {key : Key} {i : Nat} :
    validatorIndexMap keys key = some i ↔ keys[i]? = some key := by
  induction keys using List.reverseRecOn generalizing i with
  | nil => simp [validatorIndexMap]
  | append_singleton keys last ih =>
    obtain ⟨hkeys, -, hlast⟩ := nodup_append.1 hnodup
    have hnot : last ∉ keys := fun hmem => hlast last hmem last mem_cons_self rfl
    rw [validatorIndexMap_concat, getElem?_concat_eq_some]
    by_cases hkey : key = last
    · subst hkey
      have hother : keys[i]? ≠ some key := fun h => hnot (mem_of_getElem? h)
      simp [hother, eq_comm]
    · rw [update_of_ne hkey, ih hkeys]
      simp [Ne.symm hkey]

/-- The registry of a beacon state, and the map handler that the state points to. -/
structure Registry (Key : Type) where
  publicKeys : List Key
  valMapHandler : Nat

/-- All beacon states and map handlers of the process. Handlers from `fresh` on are unused. -/
structure Heap (Key : Type) where
  states : List (Registry Key)
  handlers : Nat → Key → Option Nat
  fresh : Nat

open Heap

inductive Op (Key : Type) where
  | new (keys : List Key)
  | copy (state : Nat)
  | appendValidator (state : Nat) (key : Key)
  | setValidators (state : Nat) (keys : List Key)

namespace Heap

def empty : Heap Key := ⟨[], fun _ _ => none, 0⟩

def newValMapHandler (heap : Heap Key) (keys : List Key) : Heap Key :=
  { heap with
    handlers := Function.update heap.handlers heap.fresh (validatorIndexMap keys)
    fresh := heap.fresh + 1 }

def set (heap : Heap Key) (handler : Nat) (key : Key) (index : Nat) : Heap Key :=
  { heap with
    handlers := Function.update heap.handlers handler
      (Function.update (heap.handlers handler) key (some index)) }

def validatorIndexByPubkey (heap : Heap Key) (st : Registry Key) (key : Key) : Option Nat :=
  (heap.handlers st.valMapHandler key).filter (· < st.publicKeys.length)

/-- One call; a call on a state that does not exist does nothing. -/
def step (heap : Heap Key) : Op Key → Heap Key
  | .new keys =>
    { heap.newValMapHandler keys with states := heap.states ++ [⟨keys, heap.fresh⟩] }
  | .copy i =>
    match heap.states[i]? with
    | none => heap
    | some st => { heap with states := heap.states ++ [st] }
  | .appendValidator i key =>
    match heap.states[i]? with
    | none => heap
    | some st =>
      { heap.set st.valMapHandler key st.publicKeys.length with
        states := heap.states.set i { st with publicKeys := st.publicKeys ++ [key] } }
  | .setValidators i keys =>
    match heap.states[i]? with
    | none => heap
    | some _ =>
      { heap.newValMapHandler keys with states := heap.states.set i ⟨keys, heap.fresh⟩ }

def run (heap : Heap Key) (ops : List (Op Key)) : Heap Key := ops.foldl step heap

/-- The lookup of every state answers from the registry of that state. -/
def Private (heap : Heap Key) : Prop :=
  ∀ st ∈ heap.states, ∀ key i,
    heap.validatorIndexByPubkey st key = some i ↔ st.publicKeys[i]? = some key

/-- No state points to an unused handler. -/
def Allocated (heap : Heap Key) : Prop := ∀ st ∈ heap.states, st.valMapHandler < heap.fresh

end Heap

namespace Op

/-- The keys of every state stay distinct. -/
def Distinct (heap : Heap Key) : Op Key → Prop
  | .new keys => keys.Nodup
  | .copy _ => True
  | .appendValidator i key => ∀ st, heap.states[i]? = some st → key ∉ st.publicKeys
  | .setValidators _ keys => keys.Nodup

/-- An append gives a key an index that no other key has in the shared map, and that no state
of the map has differently. -/
def Fits (heap : Heap Key) : Op Key → Prop
  | .appendValidator i key => ∀ st, heap.states[i]? = some st →
    (∀ other ≠ key, heap.handlers st.valMapHandler other ≠ some st.publicKeys.length) ∧
    ∀ st' ∈ heap.states, st'.valMapHandler = st.valMapHandler →
      key ∈ st'.publicKeys ∨ st.publicKeys.length < st'.publicKeys.length →
      st'.publicKeys[st.publicKeys.length]? = some key
  | _ => True

end Op

namespace Heap

variable {heap : Heap Key} {st : Registry Key} {i : Nat} {key : Key}

omit [DecidableEq Key] in
theorem validatorIndexByPubkey_eq_some :
    heap.validatorIndexByPubkey st key = some i ↔
      heap.handlers st.valMapHandler key = some i ∧ i < st.publicKeys.length := by
  simp [validatorIndexByPubkey, filter_eq_some_iff]

variable {keys : List Key}

theorem lookup_new (hnodup : keys.Nodup) :
    (heap.newValMapHandler keys).validatorIndexByPubkey ⟨keys, heap.fresh⟩ key = some i ↔
      keys[i]? = some key := by
  simp only [validatorIndexByPubkey_eq_some, newValMapHandler, update_self,
    validatorIndexMap_eq_some hnodup, and_iff_left_iff_imp]
  exact fun h => (List.getElem?_eq_some_iff.1 h).1

/-- Making a handler does not change what the states of other handlers answer. -/
theorem lookup_newValMapHandler (keys : List Key) (hst : st.valMapHandler < heap.fresh) :
    (heap.newValMapHandler keys).validatorIndexByPubkey st key =
      heap.validatorIndexByPubkey st key := by
  simp only [validatorIndexByPubkey, newValMapHandler, update_of_ne hst.ne]

theorem Allocated.step (h : heap.Allocated) (op : Op Key) : (heap.step op).Allocated := by
  have hlater {st : Registry Key} (hst : st ∈ heap.states) : st.valMapHandler < heap.fresh + 1 :=
    (h st hst).trans (Nat.lt_succ_self _)
  cases op with
  | new keys =>
    intro st hst
    rcases mem_append.1 hst with hst | hst
    · exact hlater hst
    · rw [mem_singleton.1 hst]
      exact Nat.lt_succ_self _
  | copy i =>
    cases hi : heap.states[i]? with
    | none => simpa only [Heap.step, hi] using h
    | some src =>
      simp only [Heap.step, hi]
      intro st hst
      rcases mem_append.1 hst with hst | hst
      · exact h st hst
      · rw [mem_singleton.1 hst]
        exact h src (mem_of_getElem? hi)
  | appendValidator i key =>
    cases hi : heap.states[i]? with
    | none => simpa only [Heap.step, hi] using h
    | some src =>
      simp only [Heap.step, hi]
      intro st hst
      rcases mem_or_eq_of_mem_set hst with hst | rfl
      · exact h st hst
      · exact h src (mem_of_getElem? hi)
  | setValidators i keys =>
    cases hi : heap.states[i]? with
    | none => simpa only [Heap.step, hi] using h
    | some src =>
      simp only [Heap.step, hi]
      intro st hst
      rcases mem_or_eq_of_mem_set hst with hst | rfl
      · exact hlater hst
      · exact Nat.lt_succ_self _

theorem lookup_set_self {index : Nat} :
    (heap.set st.valMapHandler key index).validatorIndexByPubkey st key = some i ↔
      i = index ∧ i < st.publicKeys.length := by
  rw [validatorIndexByPubkey_eq_some]
  simp [set, eq_comm]

theorem lookup_set_of_ne {other : Key} {handler index : Nat}
    (h : st.valMapHandler = handler → other ≠ key) :
    (heap.set handler key index).validatorIndexByPubkey st other =
      heap.validatorIndexByPubkey st other := by
  unfold validatorIndexByPubkey set
  by_cases hhandler : st.valMapHandler = handler
  · subst hhandler
    simp [h rfl]
  · simp [hhandler]

theorem Private.new (h : heap.Private) (halloc : heap.Allocated) (hnodup : keys.Nodup) :
    (heap.step (.new keys)).Private := by
  intro st hst key i
  rcases mem_append.1 hst with hst | hst
  · exact (iff_of_eq (congrArg (· = some i) (lookup_newValMapHandler keys (halloc st hst)))).trans
      (h st hst key i)
  · rw [mem_singleton.1 hst]
    exact lookup_new hnodup

theorem Private.copy (h : heap.Private) (src : Nat) : (heap.step (.copy src)).Private := by
  cases hsrc : heap.states[src]? with
  | none => simpa only [step, hsrc] using h
  | some src =>
    simp only [step, hsrc]
    intro st hst
    rcases mem_append.1 hst with hst | hst
    · exact h st hst
    · rw [mem_singleton.1 hst]
      exact h src (mem_of_getElem? hsrc)

theorem Private.setValidators (h : heap.Private) (halloc : heap.Allocated) (dst : Nat)
    (hnodup : keys.Nodup) : (heap.step (.setValidators dst keys)).Private := by
  cases hdst : heap.states[dst]? with
  | none => simpa only [step, hdst] using h
  | some _ =>
    simp only [step, hdst]
    intro st hst key i
    rcases mem_or_eq_of_mem_set hst with hst | rfl
    · exact (iff_of_eq (congrArg (· = some i)
        (lookup_newValMapHandler keys (halloc st hst)))).trans (h st hst key i)
    · exact lookup_new hnodup

section Append

variable {dst : Nat}

/-- The state that a validator is appended to knows the new key, and no other at its index. -/
theorem lookup_appended (h : heap.Private) (hdst : heap.states[dst]? = some st)
    (hnew : key ∉ st.publicKeys)
    (hfree : ∀ other ≠ key, heap.handlers st.valMapHandler other ≠ some st.publicKeys.length)
    (other : Key) (i : Nat) :
    (heap.set st.valMapHandler key st.publicKeys.length).validatorIndexByPubkey
        { st with publicKeys := st.publicKeys ++ [key] } other = some i ↔
      (st.publicKeys ++ [key])[i]? = some other := by
  rw [getElem?_concat_eq_some, ← h st (mem_of_getElem? hdst), validatorIndexByPubkey_eq_some,
    validatorIndexByPubkey_eq_some, length_append, length_singleton]
  by_cases hother : other = key
  · subst hother
    have hno : ¬ (heap.handlers st.valMapHandler other = some i ∧ i < st.publicKeys.length) := by
      rw [← validatorIndexByPubkey_eq_some, h st (mem_of_getElem? hdst)]
      exact fun h => hnew (mem_of_getElem? h)
    simp only [set, update_self, some.injEq, hno, false_or, and_true]
    omega
  · simp only [set, update_self, update_of_ne hother, Ne.symm hother,
      and_false, or_false, and_congr_right_iff]
    intro hindex
    have hne := hfree other hother
    rw [hindex, Ne, some.injEq] at hne
    omega

/-- A state of the same map keeps its answers if it agrees about the new key and index. -/
theorem lookup_sharing (h : heap.Private) {st' : Registry Key} (hst' : st' ∈ heap.states)
    (hagree : st'.valMapHandler = st.valMapHandler →
      key ∈ st'.publicKeys ∨ st.publicKeys.length < st'.publicKeys.length →
      st'.publicKeys[st.publicKeys.length]? = some key) (other : Key) (i : Nat) :
    (heap.set st.valMapHandler key st.publicKeys.length).validatorIndexByPubkey st' other =
        some i ↔ st'.publicKeys[i]? = some other := by
  by_cases hkey : st'.valMapHandler = st.valMapHandler → other ≠ key
  · rw [lookup_set_of_ne hkey]
    exact h st' hst' other i
  · push Not at hkey
    obtain ⟨hhandler, rfl⟩ := hkey
    rw [← hhandler, lookup_set_self]
    constructor
    · rintro ⟨rfl, hlt⟩
      exact hagree hhandler (.inr hlt)
    · intro hi
      have hat := hagree hhandler (.inl (mem_of_getElem? hi))
      have hsame : some i = some st.publicKeys.length :=
        ((h st' hst' other i).2 hi).symm.trans ((h st' hst' other _).2 hat)
      exact ⟨some.inj hsame, (List.getElem?_eq_some_iff.1 hi).1⟩

/-- An append keeps the lookups right exactly when it fits. -/
theorem private_append_iff (h : heap.Private)
    (hdistinct : (Op.appendValidator dst key).Distinct heap) :
    (heap.step (.appendValidator dst key)).Private ↔
      (Op.appendValidator dst key).Fits heap := by
  cases hdst : heap.states[dst]? with
  | none => simp [step, Op.Fits, hdst, h]
  | some st =>
    have hnew := hdistinct st hdst
    have hlt : dst < heap.states.length := (List.getElem?_eq_some_iff.1 hdst).1
    simp only [step, hdst]
    constructor
    · intro hprivate st₀ hst₀
      obtain rfl : st = st₀ := some.inj (hdst.symm.trans hst₀)
      refine ⟨fun other hother hindex => ?_, fun st' hst' hhandler hknows => ?_⟩
      · have hlook := (hprivate _ (mem_set hlt _) other st.publicKeys.length).1
          (validatorIndexByPubkey_eq_some.2
            ⟨by simpa [set, hother] using hindex, by simp⟩)
        simp only [getElem?_concat_length, some.injEq] at hlook
        exact hother hlook.symm
      · -- The state itself neither has the key nor the index.
        obtain ⟨j, hj⟩ := mem_iff_getElem?.1 hst'
        have hne : dst ≠ j := by
          rintro rfl
          obtain rfl : st = st' := some.inj (hdst.symm.trans hj)
          exact hknows.elim hnew (lt_irrefl _)
        have hmem : st' ∈ heap.states.set dst { st with publicKeys := st.publicKeys ++ [key] } :=
          mem_of_getElem? (by rw [getElem?_set_ne hne, hj])
        have hlook := hprivate st' hmem key
        simp only [← hhandler] at hlook ⊢
        rcases hknows with hkey | hlonger
        · obtain ⟨i, hi⟩ := mem_iff_getElem?.1 hkey
          obtain ⟨rfl, -⟩ := lookup_set_self.1 ((hlook i).2 hi)
          exact hi
        · exact (hlook _).1 (lookup_set_self.2 ⟨rfl, hlonger⟩)
    · intro hfits
      obtain ⟨hfree, hagree⟩ := hfits st hdst
      intro st' hst' other i
      rcases mem_or_eq_of_mem_set hst' with hst' | rfl
      · exact lookup_sharing h hst' (hagree st' hst') other i
      · exact lookup_appended h hdst hnew hfree other i

end Append

section Runs

variable {ops : List (Op Key)}

/-- Along the run the keys of every state are distinct. -/
def AllDistinct (heap : Heap Key) : List (Op Key) → Prop
  | [] => True
  | op :: ops => op.Distinct heap ∧ AllDistinct (heap.step op) ops

/-- Along the run every append fits. -/
def AllFit (heap : Heap Key) : List (Op Key) → Prop
  | [] => True
  | op :: ops => op.Fits heap ∧ AllFit (heap.step op) ops

/-- After every prefix of the run, the lookups of all states are right. -/
def AlwaysPrivate (heap : Heap Key) (ops : List (Op Key)) : Prop :=
  ∀ before, before <+: ops → (heap.run before).Private

theorem alwaysPrivate_cons {op : Op Key} :
    heap.AlwaysPrivate (op :: ops) ↔ heap.Private ∧ (heap.step op).AlwaysPrivate ops := by
  constructor
  · intro h
    exact ⟨h [] nil_prefix, fun before hbefore => h (op :: before)
      (cons_prefix_cons.2 ⟨rfl, hbefore⟩)⟩
  · rintro ⟨hnow, hlater⟩ before hbefore
    cases before with
    | nil => exact hnow
    | cons op' before =>
      obtain ⟨rfl, hrest⟩ := cons_prefix_cons.1 hbefore
      exact hlater before hrest

theorem private_step_iff (h : heap.Private) (halloc : heap.Allocated) {op : Op Key}
    (hdistinct : op.Distinct heap) : (heap.step op).Private ↔ op.Fits heap := by
  cases op with
  | new keys => exact iff_of_true (h.new halloc hdistinct) trivial
  | copy src => exact iff_of_true (h.copy src) trivial
  | appendValidator dst key => exact private_append_iff h hdistinct
  | setValidators dst keys => exact iff_of_true (h.setValidators halloc dst hdistinct) trivial

theorem alwaysPrivate_iff_of_private (h : heap.Private) (halloc : heap.Allocated)
    (hdistinct : heap.AllDistinct ops) : heap.AlwaysPrivate ops ↔ heap.AllFit ops := by
  induction ops generalizing heap with
  | nil =>
    refine iff_of_true (fun before hbefore => ?_) trivial
    rw [prefix_nil.1 hbefore]
    exact h
  | cons op ops ih =>
    obtain ⟨hop, hops⟩ := hdistinct
    rw [alwaysPrivate_cons]
    constructor
    · rintro ⟨-, hlater⟩
      have hstep : (heap.step op).Private := hlater [] nil_prefix
      exact ⟨(private_step_iff h halloc hop).1 hstep, (ih hstep (halloc.step op) hops).1 hlater⟩
    · rintro ⟨hfits, hlater⟩
      have hstep := (private_step_iff h halloc hop).2 hfits
      exact ⟨h, (ih hstep (halloc.step op) hops).2 hlater⟩

/-- The lookups of all states stay right along a run exactly when every append fits. -/
theorem alwaysPrivate_iff (ops : List (Op Key)) (hdistinct : (empty : Heap Key).AllDistinct ops) :
    (empty : Heap Key).AlwaysPrivate ops ↔ (empty : Heap Key).AllFit ops :=
  alwaysPrivate_iff_of_private (forall_mem_nil _) (forall_mem_nil _) hdistinct

def branches (key other : Fin 3) : List (Op (Fin 3)) :=
  [.new [0], .copy 0, .appendValidator 0 key, .appendValidator 1 other]

theorem allDistinct_branches {key other : Fin 3} (hkey : key ≠ 0) (hother : other ≠ 0) :
    (empty : Heap (Fin 3)).AllDistinct (branches key other) := by
  refine ⟨nodup_singleton _, trivial, ?_, ?_, trivial⟩
  · rintro st ⟨⟩
    simpa using hkey
  · rintro st ⟨⟩
    simpa using hother

/-- After different validators, the first branch answers with its own validator 1 for the key of
the other branch. -/
theorem not_alwaysPrivate_branches :
    (empty : Heap (Fin 3)).AllDistinct (branches 1 2) ∧
      ¬ (empty : Heap (Fin 3)).AlwaysPrivate (branches 1 2) := by
  refine ⟨allDistinct_branches (by decide) (by decide), fun h => ?_⟩
  have hfinal := h (branches 1 2) prefix_rfl ⟨[0, 1], 0⟩ mem_cons_self 2 1
  exact absurd (hfinal.1 (by decide)) (by decide)

/-- The same validator on both branches is fine. -/
theorem alwaysPrivate_branches_same : (empty : Heap (Fin 3)).AlwaysPrivate (branches 1 1) := by
  refine (alwaysPrivate_iff (branches 1 1) (allDistinct_branches (by decide) (by decide))).2
    ⟨trivial, trivial, ?_, ?_, trivial⟩
  · rintro st ⟨⟩
    decide
  · rintro st ⟨⟩
    decide

end Runs

end Heap

end LightChain.StateNative

import Mathlib

/-!
# Partial maps stored by value

A partial map from keys to values is kept as a list of values, each with the keys that have
it. The order of values and keys means nothing, so keys are removed by moving the last entry
into the gap. `pairs` is the map as an association list, and each operation is described by
what it does to the pairs up to their order.
-/
namespace LightChain.Library
open List

universe u v

variable {α : Type u} {K : Type u} {V : Type v}

/-- Removal that moves the last entry into the gap. -/
def swapRemove (xs : List α) (i : Nat) : List α :=
  match xs.getLast? with
  | none => []
  | some last => (xs.set i last).dropLast

theorem swapRemove_perm {xs : List α} {i : Nat} (hi : i < xs.length) :
    (swapRemove xs i).Perm (xs.eraseIdx i) := by
  obtain ⟨ys, last, rfl⟩ : ∃ ys last, xs = ys ++ [last] :=
    ⟨xs.dropLast, xs.getLast (ne_nil_of_length_pos (by omega)),
      (dropLast_append_getLast _).symm⟩
  rw [length_append, length_singleton] at hi
  simp only [swapRemove, getLast?_append, getLast?_singleton, Option.some_or]
  by_cases hlt : i < ys.length
  · rw [set_append_left _ _ hlt, dropLast_concat, eraseIdx_append_of_lt_length hlt]
    exact (set_perm_cons_eraseIdx hlt last).trans (perm_append_singleton _ _).symm
  · obtain rfl : i = ys.length := by omega
    simp [eraseIdx_append_of_length_le]

structure Fibre (V : Type v) (K : Type u) where
  val : V
  ids : List K
deriving DecidableEq, Repr

abbrev Fibres (V : Type v) (K : Type u) := List (Fibre V K)

namespace Fibres

def pairs (f : Fibres V K) : List (K × V) := f.flatMap fun g => g.ids.map (·, g.val)

def keys (f : Fibres V K) : List K := f.pairs.map Prod.fst

/-- No key has two values, or one value twice. -/
def Wf (f : Fibres V K) : Prop := f.keys.Nodup

def get [DecidableEq K] (i : K) (f : Fibres V K) : Option V := (f.find? (i ∈ ·.ids)).map Fibre.val

/-- The key `dst` joins the value of `src`, if it has one. -/
def join [DecidableEq K] (src dst : K) (f : Fibres V K) : Option (Fibres V K) :=
  (f.findIdx? (src ∈ ·.ids)).bind fun k => (f[k]?).map fun g =>
    f.set k { g with ids := g.ids ++ [dst] }

/-- The key leaves its value, if it has one; a value without keys is dropped. -/
def leave [DecidableEq K] (i : K) (f : Fibres V K) : Option (Fibres V K) :=
  (f.findIdx? (i ∈ ·.ids)).bind fun k => (f[k]?).map fun g =>
    if g.ids.length = 1 then swapRemove f k
    else f.set k { g with ids := swapRemove g.ids (g.ids.idxOf i) }

/-- The key joins an equal value, or starts a new one. -/
def assign [DecidableEq V] (i : K) (v : V) (f : Fibres V K) : Fibres V K :=
  match (f.findIdx? (·.val = v)).bind fun k => (f[k]?).map fun g =>
    f.set k { g with ids := g.ids ++ [i] } with
  | some f' => f'
  | none => f ++ [⟨v, [i]⟩]

section Pairs

variable {f f' : Fibres V K} {i j : K} {v : V} {k : Nat} {g : Fibre V K}

@[simp] theorem pairs_cons : pairs (g :: f) = g.ids.map (·, g.val) ++ pairs f := rfl

@[simp] theorem pairs_nil : pairs ([] : Fibres V K) = [] := rfl

theorem pairs_perm (h : f.Perm f') : f.pairs.Perm f'.pairs := h.flatMap_right _

theorem mem_pairs : (i, v) ∈ f.pairs ↔ ∃ g ∈ f, g.val = v ∧ i ∈ g.ids := by
  simp only [pairs, mem_flatMap, mem_map, Prod.mk.injEq]
  grind

theorem mem_keys : i ∈ f.keys ↔ ∃ g ∈ f, i ∈ g.ids := by
  simp only [keys, mem_map, Prod.exists, mem_pairs]
  grind

theorem pairs_set (hk : f[k]? = some g) (ids : List K) :
    ∃ rest, f.pairs.Perm (g.ids.map (·, g.val) ++ pairs rest) ∧
      (pairs (f.set k { g with ids := ids })).Perm (ids.map (·, g.val) ++ pairs rest) ∧
      (pairs (swapRemove f k)).Perm (pairs rest) := by
  obtain ⟨hlt, rfl⟩ := List.getElem?_eq_some_iff.1 hk
  refine ⟨f.eraseIdx k, ?_, ?_, pairs_perm (swapRemove_perm hlt)⟩
  · exact pairs_perm (getElem_cons_eraseIdx_perm hlt).symm
  · exact pairs_perm (set_perm_cons_eraseIdx hlt _)

theorem assign_pairs [DecidableEq V] (i : K) (v : V) (f : Fibres V K) :
    (assign i v f).pairs.Perm ((i, v) :: f.pairs) := by
  unfold assign
  split
  next f' h =>
    obtain ⟨k, hk, g, hg, rfl⟩ : ∃ k, f.findIdx? (·.val = v) = some k ∧
        ∃ g, f[k]? = some g ∧ f.set k { g with ids := g.ids ++ [i] } = f' := by
      simpa [Option.bind_eq_some_iff] using h
    obtain ⟨rest, hf, hset, -⟩ := pairs_set hg (g.ids ++ [i])
    have hval : g.val = v := by grind [findIdx?_eq_some_iff_getElem]
    refine hset.trans ?_
    rw [map_append, append_assoc]
    exact (perm_middle).trans ((hf.symm.cons _).trans (by rw [hval]))
  next =>
    rw [pairs, flatMap_append]
    exact perm_append_singleton (i, v) f.pairs

theorem wf_singleton (v : V) (i : K) : Wf [⟨v, [i]⟩] := by
  simp [Wf, keys, pairs]

variable [DecidableEq K]

theorem join_pairs {src dst : K} (h : f.join src dst = some f') :
    ∃ v, (src, v) ∈ f.pairs ∧ f'.pairs.Perm ((dst, v) :: f.pairs) := by
  obtain ⟨k, hk, g, hg, rfl⟩ : ∃ k, f.findIdx? (src ∈ ·.ids) = some k ∧
      ∃ g, f[k]? = some g ∧ f.set k { g with ids := g.ids ++ [dst] } = f' := by
    simpa [join, Option.bind_eq_some_iff] using h
  obtain ⟨rest, hf, hset, -⟩ := pairs_set hg (g.ids ++ [dst])
  have hsrc : src ∈ g.ids := by grind [findIdx?_eq_some_iff_getElem]
  refine ⟨g.val, mem_pairs.2 ⟨g, mem_of_getElem? hg, rfl, hsrc⟩, hset.trans ?_⟩
  rw [map_append, append_assoc]
  exact List.perm_middle.trans (hf.symm.cons _)

theorem leave_pairs (h : f.leave i = some f') : ∃ v, f.pairs.Perm ((i, v) :: f'.pairs) := by
  obtain ⟨k, hk, g, hg, hf'⟩ : ∃ k, f.findIdx? (i ∈ ·.ids) = some k ∧ ∃ g, f[k]? = some g ∧
      (if g.ids.length = 1 then swapRemove f k
        else f.set k { g with ids := swapRemove g.ids (g.ids.idxOf i) }) = f' := by
    simpa [leave, Option.bind_eq_some_iff] using h
  have hi : i ∈ g.ids := by grind [findIdx?_eq_some_iff_getElem]
  obtain ⟨rest, hf, hset, hremove⟩ := pairs_set hg (swapRemove g.ids (g.ids.idxOf i))
  refine ⟨g.val, hf.trans ?_⟩
  split_ifs at hf' with hone <;> subst hf'
  · obtain ⟨i', hids⟩ := length_eq_one_iff.1 hone
    obtain rfl : i = i' := by simpa [hids] using hi
    rw [hids]
    exact (hremove.symm.cons _)
  · have hlt : g.ids.idxOf i < g.ids.length := idxOf_lt_length_iff.2 hi
    have hids : g.ids.Perm (i :: swapRemove g.ids (g.ids.idxOf i)) := by
      have hget := (getElem_cons_eraseIdx_perm hlt).symm
      rw [getElem_idxOf] at hget
      exact hget.trans ((swapRemove_perm hlt).symm.cons i)
    exact ((hids.map _).append_right _).trans (hset.symm.cons _)

end Pairs

section Get

variable [DecidableEq K] {f f' : Fibres V K} {i j : K} {v : V}

theorem get_eq_none : f.get i = none ↔ i ∉ f.keys := by
  simp [get, mem_keys]

theorem get_eq_some (hf : f.Wf) : f.get i = some v ↔ (i, v) ∈ f.pairs := by
  constructor
  · intro h
    obtain ⟨g, hg, rfl⟩ := Option.map_eq_some_iff.1 h
    have hi := find?_some hg
    exact mem_pairs.2 ⟨g, mem_of_find?_eq_some hg, rfl, by simpa using hi⟩
  · intro h
    cases hget : f.get i with
    | none => exact absurd (mem_map_of_mem h) (get_eq_none.1 hget)
    | some w =>
      obtain ⟨g, hg, rfl⟩ := Option.map_eq_some_iff.1 hget
      have hi := find?_some hg
      have hw : (i, g.val) ∈ f.pairs :=
        mem_pairs.2 ⟨g, mem_of_find?_eq_some hg, rfl, by simpa using hi⟩
      have hnodup : (f.pairs.map Prod.fst).Nodup := hf
      rw [(Prod.mk.inj (inj_on_of_nodup_map hnodup hw h rfl)).2]

theorem get_of_cons (hf : f.Wf) (hi : f.get i = none) (h : f'.pairs.Perm ((i, v) :: f.pairs)) :
    f'.Wf ∧ ∀ j, f'.get j = if j = i then some v else f.get j := by
  have hkeys : f'.keys.Perm (i :: f.keys) := h.map Prod.fst
  have hwf : f'.Wf := hkeys.nodup_iff.2 (nodup_cons.2 ⟨get_eq_none.1 hi, hf⟩)
  refine ⟨hwf, fun j => Option.ext fun w => ?_⟩
  rw [get_eq_some hwf, h.mem_iff, mem_cons, Prod.mk.injEq]
  split_ifs with hj
  · subst hj
    have hnot : (j, w) ∉ f.pairs := fun hmem =>
      get_eq_none.1 hi (mem_map_of_mem hmem)
    simp [hnot, eq_comm]
  · simp [hj, get_eq_some hf]

theorem get_assign [DecidableEq V] (hf : f.Wf) (hi : f.get i = none) (v : V) :
    (f.assign i v).Wf ∧ ∀ j, (f.assign i v).get j = if j = i then some v else f.get j :=
  get_of_cons hf hi (assign_pairs i v f)

theorem at_key_eq_none {β : Type*} (h : Nat → Fibre V K → β) :
    ((f.findIdx? (i ∈ ·.ids)).bind fun k => (f[k]?).map (h k)) = none ↔ f.get i = none := by
  have hsome (k : Nat) (hk : f.findIdx? (i ∈ ·.ids) = some k) : f[k]? ≠ none := by
    grind [findIdx?_eq_some_iff_getElem]
  rw [get_eq_none, mem_keys]
  cases hk : f.findIdx? (i ∈ ·.ids) with
  | none => simpa using hk
  | some k =>
    obtain ⟨g, hg⟩ := Option.ne_none_iff_exists'.1 (hsome k hk)
    have hi : i ∈ g.ids := by grind [findIdx?_eq_some_iff_getElem]
    simp only [Option.bind_some, hg, Option.map_some, reduceCtorEq, false_iff, not_not]
    exact ⟨g, mem_of_getElem? hg, hi⟩

variable {src dst : K}

theorem join_eq_none : f.join src dst = none ↔ f.get src = none :=
  at_key_eq_none _

theorem leave_eq_none : f.leave i = none ↔ f.get i = none := at_key_eq_none _

theorem get_leave (hf : f.Wf) (h : f.leave i = some f') :
    f'.Wf ∧ ∀ j, f'.get j = if j = i then none else f.get j := by
  obtain ⟨v, hpairs⟩ := leave_pairs h
  have hkeys : f.keys.Perm (i :: f'.keys) := hpairs.map Prod.fst
  obtain ⟨hi, hf'⟩ := nodup_cons.1 (hkeys.nodup_iff.1 hf)
  have hget := (get_of_cons hf' (get_eq_none.2 hi) hpairs).2
  refine ⟨hf', fun j => ?_⟩
  rw [hget j]
  split_ifs with hj
  · rw [hj, get_eq_none.2 hi]
  · rfl

theorem get_join_getD (hf : f.Wf) (hdst : f.get dst = none) :
    ((f.join src dst).getD f).Wf ∧
      ∀ j, ((f.join src dst).getD f).get j = if j = dst then f.get src else f.get j := by
  cases h : f.join src dst with
  | none =>
    refine ⟨hf, fun j => ?_⟩
    rw [Option.getD_none, join_eq_none.1 h]
    split_ifs with hj
    · rw [hj, hdst]
    · rfl
  | some f' =>
    obtain ⟨v, hv, hpairs⟩ := join_pairs h
    rw [(get_eq_some hf).2 hv]
    exact get_of_cons hf hdst hpairs

theorem get_leave_getD (hf : f.Wf) : ((f.leave i).getD f).Wf ∧
    ∀ j, ((f.leave i).getD f).get j = if j = i then none else f.get j := by
  cases h : f.leave i with
  | none =>
    refine ⟨hf, fun j => ?_⟩
    rw [Option.getD_none]
    split_ifs with hj
    · rw [hj, leave_eq_none.1 h]
    · rfl
  | some f' => exact get_leave hf h

end Get

end Fibres

end LightChain.Library

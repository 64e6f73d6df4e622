import Mathlib

/-!
# Tables indexed by a residue

A table keeps for every residue the number that was recorded last. The entries are different
numbers, so counting entries counts numbers.
-/
namespace LightChain.Library
open List

/-- Enter a number at its residue. -/
def recordAt (n : Nat) (table : Nat → Nat) (x : Nat) : Nat → Nat := Function.update table (x % n) x

/-- The number recorded last at a residue, or zero. -/
def lastAt (n : Nat) (xs : List Nat) (i : Nat) : Nat := (xs.filter (· % n = i)).getLastD 0

variable {n : Nat}

theorem foldl_recordAt (xs : List Nat) :
    xs.foldl (recordAt n) (fun _ => 0) = lastAt n xs := by
  induction xs using List.reverseRecOn with
  | nil => rfl
  | append_singleton xs x ih =>
    funext i
    rw [foldl_append, ih]
    by_cases h : x % n = i
    · simp [lastAt, recordAt, h]
    · simp [lastAt, recordAt, h, Ne.symm h]

theorem mem_of_lastAt {xs : List Nat} {i : Nat} (h : lastAt n xs i ≠ 0) :
    lastAt n xs i ∈ xs ∧ lastAt n xs i % n = i := by
  unfold lastAt at h ⊢
  cases hlast : (xs.filter (· % n = i)).getLast? with
  | none => simp [getLastD_eq_getLast?, hlast] at h
  | some x =>
    have := mem_of_getLast? hlast
    simpa [getLastD_eq_getLast?, hlast] using this

/-- The entries of the table with a property are as many as the recorded numbers that have it
and stand in the table. -/
theorem countP_lastAt (xs : List Nat) {size : Nat} (hn : 0 < n) (hsize : n ≤ size)
    (p : Nat → Prop) [DecidablePred p] (hp : ¬p 0) :
    (List.range size).countP (fun i => p (lastAt n xs i)) =
      (xs.toFinset.filter fun x => p x ∧ lastAt n xs (x % n) = x).card := by
  rw [countP_eq_length_filter,
    ← toFinset_card_of_nodup (List.nodup_range.filter _)]
  have hne (i : Nat) (hi : p (lastAt n xs i)) : lastAt n xs i ≠ 0 := fun h => hp (h ▸ hi)
  refine Finset.card_nbij' (lastAt n xs) (· % n) ?_ ?_ ?_ ?_
  · intro i hi
    simp only [coe_toFinset, mem_filter, mem_range, decide_eq_true_eq,
      Set.mem_ofPred_eq] at hi
    obtain ⟨hmem, hres⟩ := mem_of_lastAt (hne i hi.2)
    simpa [hres] using ⟨hmem, hi.2⟩
  · intro x hx
    simp only [Finset.coe_filter, mem_toFinset, Set.mem_ofPred_eq] at hx
    simpa [hx.2.2] using ⟨(Nat.mod_lt x hn).trans_le hsize, hx.2.1⟩
  · intro i hi
    simp only [coe_toFinset, mem_filter, mem_range, decide_eq_true_eq,
      Set.mem_ofPred_eq] at hi
    exact (mem_of_lastAt (hne i hi.2)).2
  · intro x hx
    simp only [Finset.coe_filter, Set.mem_ofPred_eq] at hx
    exact hx.2.2

end LightChain.Library

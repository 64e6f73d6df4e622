import Mathlib

/-!
# A list split at offsets

The pieces of a list between growing offsets, put together again, are the list. With the
offsets `length * k / count` the pieces have almost the same length.
-/
namespace LightChain.Library
open List

universe u

variable {α : Type u} {xs : List α} {offset : Nat → Nat}

theorem take_append_extract {a b : Nat} (h : a ≤ b) : xs.take a ++ xs.extract a b = xs.take b := by
  rw [extract_eq_take_drop, ← drop_take]
  have htake : xs.take a = (xs.take b).take a := by rw [take_take, min_eq_left h]
  rw [htake, take_append_drop]

theorem flatMap_extract (xs : List α) (hmono : Monotone offset) (count : Nat) :
    (List.range count).flatMap (fun k => xs.extract (offset k) (offset (k + 1))) =
      xs.extract (offset 0) (offset count) := by
  induction count with
  | zero => simp [extract_eq_take_drop]
  | succ count ih =>
    rw [range_succ, flatMap_append, ih]
    have h₀ : offset 0 ≤ offset count := hmono (Nat.zero_le _)
    have h₁ : offset count ≤ offset (count + 1) := hmono (Nat.le_succ _)
    refine append_cancel_left (?_ : xs.take (offset 0) ++ _ = xs.take (offset 0) ++ _)
    rw [← append_assoc, take_append_extract h₀, take_append_extract (h₀.trans h₁)]
    simpa using take_append_extract h₁

theorem filterMap_getElem? (xs : List α) (start stop : Nat) :
    (List.range' start (stop - start)).filterMap (xs[·]?) = xs.extract start stop := by
  rw [extract_eq_take_drop]
  generalize stop - start = len
  induction len generalizing start with
  | zero => simp
  | succ len ih =>
    rw [range'_succ, filterMap_cons, ih]
    cases hx : xs[start]? with
    | none =>
      have hle := List.getElem?_eq_none_iff.1 hx
      simp [drop_eq_nil_of_le hle, drop_eq_nil_of_le (hle.trans (Nat.le_succ _))]
    | some x =>
      obtain ⟨hlt, rfl⟩ := List.getElem?_eq_some_iff.1 hx
      rw [drop_eq_getElem_cons hlt, take_succ_cons]

theorem flatMap_digits (f : Nat → List α) (m n : Nat) :
    (List.range m).flatMap (fun a => (List.range n).flatMap fun b => f (a * n + b)) =
      (List.range (m * n)).flatMap f := by
  induction m with
  | zero => simp
  | succ m ih =>
    rw [range_succ, flatMap_append, ih, Nat.add_mul, Nat.one_mul, range_add,
      flatMap_append]
    simp [flatMap_map]

/-- Consecutive offsets `n * k / count` are `n / count` apart, or one more. -/
theorem split_step (n count k : Nat) :
    n * k / count + n / count ≤ n * (k + 1) / count ∧
      n * (k + 1) / count ≤ n * k / count + (n / count + 1) := by
  rcases Nat.eq_zero_or_pos count with rfl | hpos
  · simp
  · rw [Nat.mul_succ, Nat.add_div hpos]
    split_ifs <;> omega

theorem split_le {n count k : Nat} (hk : k < count) : n * (k + 1) / count ≤ n :=
  Nat.div_le_of_le_mul (by rw [Nat.mul_comm count]; exact Nat.mul_le_mul_left _ hk)

theorem length_extract {a b : Nat} (h : b ≤ xs.length) : (xs.extract a b).length = b - a := by
  rw [extract_eq_take_drop, length_take, length_drop]
  omega

theorem disjoint_extract (hnodup : xs.Nodup) {a b c d : Nat} (h : b ≤ c) :
    (xs.extract a b).Disjoint (xs.extract c d) := by
  intro x hx hx'
  have htake : x ∈ xs.take b := by
    rw [extract_eq_take_drop, ← drop_take] at hx
    exact mem_of_mem_drop hx
  have hdrop : x ∈ xs.drop c := by
    rw [extract_eq_take_drop] at hx'
    exact mem_of_mem_take hx'
  exact disjoint_take_drop hnodup h htake hdrop

theorem monotone_split (n count : Nat) : Monotone fun k => n * k / count :=
  fun _ _ h => Nat.div_le_div_right (Nat.mul_le_mul_left n h)

end LightChain.Library

import Mathlib

/-!
# Dropping elements of an array in place

One pass over an array moves every element that stays down over those that are dropped. The front
of the array then holds the elements that stay, in order; what is behind them is left over.
-/
namespace LightChain.Library
open List

variable {α : Type*} (gone : α → Bool)

/-- The rest of the pass, with the number of dropped elements and the array up to here. -/
def shiftLoop : List α → Nat → List α → List α × Nat
  | [], shift, front => (front, shift)
  | x :: rest, shift, front =>
    if gone x then shiftLoop rest (shift + 1) (front ++ [x])
    else shiftLoop rest shift ((front ++ [x]).set (front.length - shift) x)

/-- The array after the pass, with the number of dropped elements. -/
def shiftDown (xs : List α) : List α × Nat := shiftLoop gone xs 0 []

/-- What holds of the array and the count when a part of it has been passed. -/
structure Shifted (passed : List α) (front : List α) (shift : Nat) : Prop where
  length_eq : front.length = passed.length
  shift_eq : shift = passed.countP gone
  take_eq : front.take (passed.length - shift) = passed.filter fun x => !gone x
  subset : ∀ x ∈ front, x ∈ passed
  same : shift = passed.length → front = passed

variable {gone} {passed front : List α} {shift : Nat}

section

variable (h : Shifted gone passed front shift)

include h

theorem Shifted.drop {x : α} (hx : gone x = true) :
    Shifted gone (passed ++ [x]) (front ++ [x]) (shift + 1) := by
  have hle : shift ≤ passed.length := h.shift_eq ▸ countP_le_length
  refine ⟨by simp [h.length_eq], by simp [h.shift_eq, hx], ?_, ?_, fun hall => ?_⟩
  · have hlen : (passed ++ [x]).length - (shift + 1) = passed.length - shift := by simp
    rw [hlen, take_append_of_le_length (by rw [h.length_eq]; omega), h.take_eq]
    simp [hx]
  · intro y hy
    rcases mem_append.1 hy with hy | hy
    · exact mem_append_left _ (h.subset y hy)
    · exact mem_append_right _ hy
  · rw [h.same (by simpa using hall)]

theorem Shifted.keep {x : α} (hx : gone x = false) :
    Shifted gone (passed ++ [x]) ((front ++ [x]).set (front.length - shift) x) shift := by
  have hle : shift ≤ passed.length := h.shift_eq ▸ countP_le_length
  refine ⟨by simp [h.length_eq], by simp [h.shift_eq, hx], ?_, ?_, fun hall => ?_⟩
  · have hlen : (passed ++ [x]).length - shift = passed.length - shift + 1 := by
      simp only [length_append, length_singleton]
      omega
    have hat : passed.length - shift < ((front ++ [x]).set (passed.length - shift) x).length := by
      simp only [length_set, length_append, length_singleton, h.length_eq]
      omega
    rw [hlen, h.length_eq, take_succ_eq_append_getElem hat, getElem_set_self,
      take_set_of_le le_rfl,
      take_append_of_le_length (by rw [h.length_eq]; omega), h.take_eq]
    simp [hx]
  · intro y hy
    rcases mem_or_eq_of_mem_set hy with hy | rfl
    · rcases mem_append.1 hy with hy | hy
      · exact mem_append_left _ (h.subset y hy)
      · exact mem_append_right _ hy
    · simp
  · simp only [length_append, length_singleton] at hall
    omega

theorem shiftLoop_shifted (rest : List α) :
    Shifted gone (passed ++ rest) (shiftLoop gone rest shift front).1
      (shiftLoop gone rest shift front).2 := by
  induction rest generalizing passed front shift with
  | nil => simpa [shiftLoop] using h
  | cons x rest ih =>
    have hsplit : passed ++ x :: rest = (passed ++ [x]) ++ rest := by simp
    rw [hsplit, shiftLoop]
    cases hx : gone x with
    | true => exact ih (h.drop hx)
    | false => exact ih (h.keep hx)

end

theorem shiftDown_shifted (gone : α → Bool) (xs : List α) :
    Shifted gone xs (shiftDown gone xs).1 (shiftDown gone xs).2 := by
  have hstart : Shifted gone [] [] 0 := ⟨rfl, rfl, rfl, by simp, fun _ => rfl⟩
  exact shiftLoop_shifted hstart xs

end LightChain.Library

import Mathlib

/-!
# Loops that stop at the first gap

A list of options that has all its values in front of all its gaps. A loop that stops at the
first gap then sees everything that is there.
-/
namespace LightChain.Library
open List

universe u v

variable {α : Type u} {β : Type v}

/-- The values before the first gap. -/
def leading : List (Option β) → List β
  | some b :: os => b :: leading os
  | _ => []

/-- Replace entries up to the first for which there is no replacement. -/
def updateWhile (f : α → Option α) : List α → List α
  | [] => []
  | x :: xs =>
    match f x with
    | some y => y :: updateWhile f xs
    | none => x :: xs

/-- The values are `bs`, with no gap before or between them. -/
def Leads (os : List (Option β)) (bs : List β) : Prop :=
  ∃ n, os = bs.map some ++ List.replicate n none

variable {os : List (Option β)} {bs : List β} {b : β} {k : Nat}

section

variable (h : Leads os bs)

include h

theorem Leads.leading_eq : leading os = bs := by
  obtain ⟨n, rfl⟩ := h
  induction bs with
  | nil => cases n <;> rfl
  | cons b bs ih => simp [leading, ih]

theorem Leads.length_le : bs.length ≤ os.length := by
  obtain ⟨n, rfl⟩ := h
  simp

theorem Leads.getElem? (k : Nat) : os[k]?.join = bs[k]? := by
  obtain ⟨n, rfl⟩ := h
  grind

theorem Leads.set (hk : k < bs.length) (b : β) : Leads (os.set k (some b)) (bs.set k b) := by
  obtain ⟨n, rfl⟩ := h
  exact ⟨n, by rw [set_append_left _ _ (by simpa using hk), map_set]⟩

theorem Leads.push (hlt : bs.length < os.length) (b : β) :
    Leads (os.set bs.length (some b)) (bs ++ [b]) := by
  obtain ⟨n, rfl⟩ := h
  obtain ⟨n, rfl⟩ : ∃ m, n = m + 1 := ⟨n - 1, by simp at hlt; omega⟩
  refine ⟨n, ?_⟩
  rw [set_append_right _ _ (by simp)]
  simp [replicate_succ]

theorem Leads.concat (heq : bs.length = os.length) (b : β) :
    Leads (os ++ [some b]) (bs ++ [b]) := by
  obtain ⟨n, rfl⟩ := h
  obtain rfl : n = 0 := by simp at heq; omega
  exact ⟨0, by simp⟩

theorem Leads.concat_none : Leads (os ++ [none]) bs := by
  obtain ⟨n, rfl⟩ := h
  exact ⟨n + 1, by rw [append_assoc, replicate_succ']⟩

end

theorem leads_nil (h : ∀ o ∈ os, o = none) : Leads os [] :=
  ⟨os.length, eq_replicate_iff.2 ⟨rfl, h⟩⟩

/-- A loop that stops at the first gap replaces everything there is to replace. -/
theorem Leads.updateWhile_eq {f : α → Option α} {g : α → Option β} {xs : List α}
    (h : Leads (xs.map g) bs) (hfg : ∀ x ∈ xs, f x = none ↔ g x = none) :
    updateWhile f xs = xs.map fun x => (f x).getD x := by
  induction xs generalizing bs with
  | nil => rfl
  | cons x xs ih =>
    obtain ⟨n, h⟩ := h
    have hx := hfg x mem_cons_self
    have hxs := fun y hy => hfg y (mem_cons_of_mem x hy)
    cases bs with
    | nil =>
      -- A gap comes first, so there are only gaps.
      have hnone : ∀ y ∈ x :: xs, f y = none := fun y hy =>
        (hfg y hy).2 (eq_of_mem_replicate (n := n)
          (by simpa [h] using mem_map_of_mem (f := g) hy))
      have hmap : ((x :: xs).map fun y => (f y).getD y) = (x :: xs).map id :=
        map_congr_left fun y hy => by rw [hnone y hy, Option.getD_none, id]
      rw [updateWhile, hnone x mem_cons_self, hmap, map_id]
    | cons b bs =>
      obtain ⟨hgx, hrest⟩ := cons.inj h
      obtain ⟨y, hy⟩ := Option.ne_none_iff_exists'.1 (show f x ≠ none by simp [hx, hgx])
      rw [updateWhile, hy, map_cons, hy, ih ⟨n, hrest⟩ hxs]
      rfl

theorem map_set_of_eq {f : α → β} {xs : List α} {x y : α} (hx : xs[k]? = some x) (h : f y = f x) :
    (xs.set k y).map f = xs.map f := by
  apply ext_getElem?
  intro i
  grind

end LightChain.Library

import Mathlib

/-!
# Entries picked by position

A rearrangement of a list picks each position once. If it falls into groups, so do the positions:
where values occur more than once, this says which of them a group has.
-/
namespace LightChain.Library
open List

variable {α : Type*}

def Picks (xs : List α) (is : List Nat) (ys : List α) : Prop := is.map (xs[·]?) = ys.map some

variable {xs ys : List α} {is : List Nat}

theorem perm_of_count (h : ∀ [DecidableEq α] (x : α), xs.count x = ys.count x) : xs.Perm ys := by
  classical
  exact perm_iff_count.2 fun x => h x

theorem picks_iff : Picks xs is ys ↔ List.Forall₂ (fun i y => xs[i]? = some y) is ys := by
  unfold Picks
  rw [← forall₂_eq_eq_eq, forall₂_map_left_iff, forall₂_map_right_iff]

theorem picks_range (xs : List α) : Picks xs (List.range xs.length) xs := by
  unfold Picks
  refine ext_getElem? fun i => ?_
  rw [getElem?_map, getElem?_map]
  by_cases hi : i < xs.length <;> simp [hi]

theorem exists_picks_of_perm (h : xs.Perm ys) :
    ∃ is : List Nat, is.Perm (List.range xs.length) ∧ Picks xs is ys := by
  have hcomp : Relation.Comp (List.Forall₂ fun i y => xs[i]? = some y) List.Perm
      (List.range xs.length) ys := ⟨xs, picks_iff.1 (picks_range xs), h⟩
  rw [forall₂_comp_perm_eq_perm_comp_forall₂] at hcomp
  obtain ⟨is, hperm, his⟩ := hcomp
  exact ⟨is, hperm.symm, picks_iff.2 his⟩

theorem Picks.append {ys' : List α} (h : Picks xs is (ys ++ ys')) :
    ∃ js js', is = js ++ js' ∧ Picks xs js ys ∧ Picks xs js' ys' := by
  unfold Picks at h
  rw [map_append] at h
  obtain ⟨js, js', rfl, hjs, hjs'⟩ := map_eq_append_iff.1 h
  exact ⟨js, js', rfl, hjs, hjs'⟩

variable {groups : List (List α)}

theorem Picks.flatten (h : Picks xs is groups.flatten) :
    ∃ parts, is = parts.flatten ∧ List.Forall₂ (Picks xs) parts groups := by
  induction groups generalizing is with
  | nil =>
    obtain rfl : is = [] := by simpa [Picks] using h
    exact ⟨[], rfl, .nil⟩
  | cons group groups ih =>
    rw [flatten_cons] at h
    obtain ⟨js, js', rfl, hjs, hjs'⟩ := h.append
    obtain ⟨parts, rfl, hparts⟩ := ih hjs'
    exact ⟨js :: parts, rfl, .cons hjs hparts⟩

theorem exists_parts_of_perm {rest : List α} (h : xs.Perm (groups.flatten ++ rest)) :
    ∃ parts : List (List Nat), parts.flatten.Nodup ∧ List.Forall₂ (Picks xs) parts groups := by
  obtain ⟨is, hperm, his⟩ := exists_picks_of_perm h
  obtain ⟨js, js', rfl, hjs, -⟩ := his.append
  obtain ⟨parts, rfl, hparts⟩ := hjs.flatten
  exact ⟨parts, (hperm.nodup_iff.2 nodup_range).of_append_left, hparts⟩

section Forall₂

variable {β γ : Type*} {R : α → β → Prop} {S : β → γ → Prop} {as : List α} {bs : List β}
  {cs : List γ}

theorem forall₂_exists_left (h : List.Forall₂ R as bs) {b : β} (hb : b ∈ bs) :
    ∃ a ∈ as, R a b := by
  induction h with
  | nil => cases hb
  | cons hab _ ih =>
    rcases mem_cons.1 hb with rfl | hb
    · exact ⟨_, mem_cons_self, hab⟩
    · obtain ⟨a, ha, hR⟩ := ih hb
      exact ⟨a, mem_cons_of_mem _ ha, hR⟩

theorem forall₂_exists_right (h : List.Forall₂ R as bs) {a : α} (ha : a ∈ as) :
    ∃ b ∈ bs, R a b :=
  forall₂_exists_left (R := flip R) (Forall₂.flip h) ha

theorem forall₂_comp (h : List.Forall₂ R as bs) (h' : List.Forall₂ S bs cs) :
    List.Forall₂ (fun a c => ∃ b, R a b ∧ S b c) as cs := by
  induction h generalizing cs with
  | nil =>
    cases h'
    exact .nil
  | cons hab _ ih =>
    cases h' with
    | cons hbc h' => exact .cons ⟨_, hab, hbc⟩ (ih h')

end Forall₂

end LightChain.Library

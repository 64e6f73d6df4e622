import Mathlib

/-!
# Indices of a table

An index of a table lists under every key the rows that have the key. A row enters the index when
it enters the table, and leaves the lists of its key when it leaves the table. A whole list of the
index may be dropped just if its rows leave the table.
-/
namespace LightChain.Library
open Function

variable {ρ κ : Type*}

/-- The index lists the rows of the table under their keys, each row once. -/
structure KeyIndexes (index : κ → List ρ) (keyOf : ρ → Option κ) : Prop where
  nodup : ∀ k, (index k).Nodup
  mem_iff : ∀ k r, r ∈ index k ↔ keyOf r = some k

theorem ite_mem_update {α : Type*} [DecidableEq κ] (f : κ → α) (k : κ) (keys : List κ) (v : α) :
    (fun k' => if k' ∈ keys then v else Function.update f k v k') =
      fun k' => if k' ∈ k :: keys then v else f k' := by
  funext k'
  by_cases hk : k' = k
  · subst hk
    simp
  · simp [hk]

theorem keyIndexes_empty : KeyIndexes (fun _ : κ => ([] : List ρ)) fun _ => none :=
  ⟨fun _ => List.nodup_nil, by simp⟩

variable [DecidableEq ρ] [DecidableEq κ] {index : κ → List ρ} {keyOf : ρ → Option κ} {r : ρ} {k : κ}

theorem KeyIndexes.insert (h : KeyIndexes index keyOf) (hr : keyOf r = none) (k : κ) :
    KeyIndexes (Function.update index k (index k ++ [r])) (Function.update keyOf r (some k)) := by
  have hnew : ∀ k, r ∉ index k := fun k hmem => by simpa [hr] using (h.mem_iff k r).1 hmem
  refine ⟨fun k' => ?_, fun k' r' => ?_⟩
  · by_cases hk : k' = k
    · subst hk
      rw [update_self]
      exact List.nodup_append.2 ⟨h.nodup k', by simp, by grind⟩
    · rw [update_of_ne hk]
      exact h.nodup k'
  · by_cases hk : k' = k <;> by_cases hr' : r' = r
    · subst hk hr'
      simp
    · subst hk
      simp [hr', h.mem_iff]
    · subst hr'
      simp [hk, hnew k', Ne.symm hk]
    · simp [hk, hr', h.mem_iff]

theorem KeyIndexes.erase (h : KeyIndexes index keyOf) (hr : keyOf r = some k) :
    KeyIndexes (Function.update index k ((index k).erase r)) (Function.update keyOf r none) := by
  refine ⟨fun k' => ?_, fun k' r' => ?_⟩
  · by_cases hk : k' = k
    · subst hk
      rw [update_self]
      exact (h.nodup k').erase r
    · rw [update_of_ne hk]
      exact h.nodup k'
  · by_cases hk : k' = k <;> by_cases hr' : r' = r
    · subst hk hr'
      simp [(h.nodup k').mem_erase_iff]
    · subst hk
      simp [hr', (h.nodup k').mem_erase_iff, h.mem_iff]
    · subst hr'
      simp [hk, h.mem_iff, hr, Ne.symm hk]
    · simp [hk, hr', h.mem_iff]

omit [DecidableEq ρ] [DecidableEq κ] in
/-- Lists are dropped and rows leave the table. The index is right again just if the rows that
leave are those of the lists that are dropped. -/
theorem KeyIndexes.drop_iff (h : KeyIndexes index keyOf) {index' : κ → List ρ} {keyOf' : ρ → Option κ}
    (dropped : κ → Prop) (left : ρ → Prop)
    (hdropped : ∀ k, dropped k → index' k = []) (hkept : ∀ k, ¬ dropped k → index' k = index k)
    (hleft : ∀ r, left r → keyOf' r = none) (hstay : ∀ r, ¬ left r → keyOf' r = keyOf r) :
    KeyIndexes index' keyOf' ↔ ∀ r k, keyOf r = some k → (left r ↔ dropped k) := by
  constructor
  · intro h' r k hkey
    by_contra hne
    by_cases hr : left r
    · have hk : ¬ dropped k := fun hk => hne ⟨fun _ => hk, fun _ => hr⟩
      have hmem : r ∈ index' k := by rwa [hkept k hk, h.mem_iff]
      simpa [hleft r hr] using (h'.mem_iff k r).1 hmem
    · have hk : dropped k := by
        by_contra hk
        exact hne ⟨fun h => absurd h hr, fun h => absurd h hk⟩
      have hmem : r ∈ index' k := (h'.mem_iff k r).2 (by rw [hstay r hr, hkey])
      simp [hdropped k hk] at hmem
  · intro hall
    refine ⟨fun k => ?_, fun k r => ?_⟩
    · by_cases hk : dropped k
      · simp [hdropped k hk]
      · rw [hkept k hk]
        exact h.nodup k
    · by_cases hk : dropped k
      · rw [hdropped k hk]
        by_cases hr : left r
        · simp [hleft r hr]
        · rw [hstay r hr]
          simpa using fun hkey => hr ((hall r k hkey).2 hk)
      · rw [hkept k hk, h.mem_iff]
        by_cases hr : left r
        · rw [hleft r hr]
          simpa using fun hkey => hk ((hall r k hkey).1 hr)
        · rw [hstay r hr]

end LightChain.Library

import Mathlib

/-!
# Positions of a list that satisfy a test

Programs that collect indices in one pass over a table and act on them afterwards keep
them in ascending order. `positions` is that list of indices.
-/
namespace LightChain.Library
open List

variable {α : Type*}

/-- The positions whose entry passes the test, in ascending order. -/
def positions (p : Nat → α → Bool) (xs : List α) : List Nat :=
  (xs.zipIdx.filter (fun a => p a.2 a.1)).map Prod.snd

variable {p q : Nat → α → Bool} {xs : List α}

@[simp] theorem mem_positions {i : Nat} : i ∈ positions p xs ↔ ∃ x, xs[i]? = some x ∧ p i x := by
  simp only [positions, mem_map, mem_filter, Prod.exists, exists_eq_right]
  refine exists_congr fun x => ?_
  rw [mk_mem_zipIdx_iff_getElem?]

theorem positions_pairwise (p : Nat → α → Bool) (xs : List α) :
    (positions p xs).Pairwise (· < ·) := by
  have hidx : (xs.zipIdx.map Prod.snd).Pairwise (· < ·) := by
    rw [zipIdx_map_snd]
    exact pairwise_lt_range'
  exact hidx.sublist (List.filter_sublist.map _)

theorem length_positions (p : α → Bool) (xs : List α) :
    (positions (fun _ x => p x) xs).length = xs.countP p := by
  have hfst := countP_map (p := p) (f := Prod.fst) (l := xs.zipIdx)
  rw [zipIdx_map_fst] at hfst
  rw [positions, length_map, hfst, countP_eq_length_filter]
  rfl

theorem length_positions_le (p : Nat → α → Bool) (xs : List α) :
    (positions p xs).length ≤ xs.length := by
  simpa [positions] using length_filter_le (fun a => p a.2 a.1) xs.zipIdx

/-- Cutting a list before or after filtering lets the same entries through exactly when the
cut wastes no place, or has no entry left to give it to. -/
theorem mem_take_filter_iff {xs : List α} (nodup : xs.Nodup) (r : α → Bool)
    (n : Nat) :
    (∀ x, r x → (x ∈ xs.take n ↔ x ∈ (xs.filter r).take n)) ↔
      (∀ x ∈ xs.take n, r x) ∨ (∀ x ∈ xs.drop n, r x = false) := by
  have hcut : (xs.filter r).take n = (xs.take n).filter r ++
      ((xs.drop n).filter r).take (n - ((xs.take n).filter r).length) := by
    have hle : ((xs.take n).filter r).length ≤ n :=
      (length_filter_le _ _).trans (length_take_le _ _)
    conv_lhs => rw [← take_append_drop n xs, filter_append, take_append]
    rw [take_of_length_le hle]
  constructor
  · intro same
    by_contra hboth
    rw [not_or] at hboth
    obtain ⟨hwaste, hleft⟩ := hboth
    -- the first entry left over takes the wasted place
    cases hrest : (xs.drop n).filter r with
    | nil => exact hleft fun x hx => by simpa using List.filter_eq_nil_iff.mp hrest x hx
    | cons y ys =>
      have hy : y ∈ (xs.drop n).filter r := by simp [hrest]
      obtain ⟨hydrop, hyr⟩ := List.mem_filter.mp hy
      have hroom : ((xs.take n).filter r).length < n := by
        refine lt_of_lt_of_le (List.length_filter_lt_length_iff_exists.mpr ?_)
          (length_take_le _ _)
        simpa using hwaste
      have hin : y ∈ xs.take n := by
        rw [same y hyr, hcut, hrest]
        obtain ⟨k, hk⟩ : ∃ k, n - ((xs.take n).filter r).length = k + 1 :=
          ⟨n - ((xs.take n).filter r).length - 1, by omega⟩
        simp [hk]
      exact (disjoint_take_drop nodup le_rfl) hin hydrop
  · rintro (hall | hnone) x hx
    · rw [hcut, List.filter_eq_self.mpr hall]
      rcases le_total n xs.length with hle | hge
      · simp [length_take, hle]
      · simp [drop_eq_nil_of_le hge]
    · have hempty : (xs.drop n).filter r = [] := by
        simpa [filter_eq_nil_iff] using hnone
      rw [hcut, hempty]
      simp [hx]

end LightChain.Library

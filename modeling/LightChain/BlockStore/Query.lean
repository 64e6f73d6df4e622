import LightChain.BlockStore.Indices

/-!
# Queries over the slot index

`blocksAncestryQuery` collects the ancestors of a block down to a slot. It walks the slot index
downwards and takes a root if it is the parent of the last block it took. `HighestRootsBelowSlot`
gives the roots of the highest slot that has any, and the genesis root if there is none.
-/
namespace LightChain.BlockStore
open Library List

inductive QueryError where
  | invalidQuery
  | invalidSlotRange
  | notFound
  | descendent
  | genesisRootNotFound
deriving DecidableEq, Repr

def QueryError.message : QueryError → String
  | .invalidQuery => "descendent slot must come after earliest slot: invalid query"
  | .invalidSlotRange => "invalid end slot and start slot provided"
  | .notFound => "empty block bytes in db: not found in db"
  | .descendent => "descendent block not in db: empty block bytes in db: not found in db"
  | .genesisRootNotFound => "OriginGenesisRoot: not found in db"

namespace Store

variable {ρ τ : Type} [DecidableEq ρ] (s : Store ρ τ)

/-- The walk down the slot index. The blocks are in ascending order, with their roots. -/
def ancestryLoop (earliest : Nat) : List (Nat × ρ) → ρ → Nat → List (ρ × Block ρ τ) →
    Except QueryError (List (ρ × Block ρ τ))
  | [], _, _, blocks => .ok blocks
  | prev :: sr, proot, lowest, blocks =>
    if prev.1 < earliest then .ok blocks
    else if lowest ≤ prev.1 then ancestryLoop earliest sr proot lowest blocks
    else if prev.2 = proot then
      match s.getBlock prev.2 with
      | none => .error .notFound
      | some p => ancestryLoop earliest sr p.parentRoot p.slot ((prev.2, p) :: blocks)
    else ancestryLoop earliest sr proot lowest blocks

def blocksAncestryQuery (earliest descendentSlot : Nat) (descendent : ρ) :
    Except QueryError (List (ρ × Block ρ τ)) :=
  if descendentSlot < earliest then .error .invalidQuery
  else if earliest = descendentSlot then
    match s.getBlock descendent with
    | none => .error .descendent
    | some block => .ok [(descendent, block)]
  else
    match s.slotRootsInRange earliest (descendentSlot - 1) (-1) with
    | none => .error .invalidSlotRange
    | some sr =>
      match s.getBlock descendent with
      | none => .error .descendent
      | some block =>
        s.ancestryLoop earliest sr block.parentRoot block.slot [(descendent, block)]

/-- The highest slot below the given one that has roots, with the roots. -/
def highestBelow : Nat → Option (Nat × List ρ)
  | 0 => none
  | slot + 1 =>
    if s.blockSlotIndices slot = [] then highestBelow slot else some (slot, s.blockSlotIndices slot)

def highestRootsBelowSlot [Zero ρ] (slot : Nat) : Except QueryError (Nat × List ρ) :=
  let genesis := match s.genesisBlockRoot with
    | none => .error .genesisRootNotFound
    | some root => .ok (0, [root])
  match s.highestBelow slot with
  | none => genesis
  | some (fs, roots) => if roots = [0] then genesis else .ok (fs, roots)

end Store

section Specs

variable {ρ τ : Type} {s : Store ρ τ}

/-- The scan without a limit finds every root of the slots in the range, the highest slots
first. -/
theorem slotRoots_spec (start n : Nat) (pairs : List (Nat × ρ)) :
    ∃ found, s.slotRoots start (-1) n pairs = pairs ++ found ∧
      (∀ slot r, (slot, r) ∈ found ↔ start ≤ slot ∧ slot < n ∧ r ∈ s.blockSlotIndices slot) ∧
      found.Pairwise fun a b => b.1 ≤ a.1 := by
  induction n generalizing pairs with
  | zero => exact ⟨[], by simp [Store.slotRoots], by simp, .nil⟩
  | succ k ih =>
    unfold Store.slotRoots
    split_ifs with hempty hlow
    · obtain ⟨found, hfound, hmem, hsorted⟩ := ih pairs
      refine ⟨found, hfound, fun slot r => ?_, hsorted⟩
      rw [hmem]
      by_cases hslot : slot = k
      · subst hslot
        simp [hempty]
      · refine and_congr_right fun _ => and_congr_left fun _ => ?_
        omega
    · refine ⟨[], by simp, fun slot r => ?_, .nil⟩
      simp only [not_mem_nil, false_iff]
      omega
    · dsimp only
      obtain ⟨found, hfound, hmem, hsorted⟩ := ih (pairs ++ (s.blockSlotIndices k).map (k, ·))
      refine ⟨(s.blockSlotIndices k).map (k, ·) ++ found, ?_, fun slot r => ?_, ?_⟩
      · rw [if_neg (by omega), hfound, append_assoc]
      · simp only [mem_append, mem_map, Prod.mk.injEq, hmem]
        constructor
        · rintro (⟨r, hr, rfl, rfl⟩ | ⟨hstart, hlt, hr⟩)
          · exact ⟨by omega, by omega, hr⟩
          · exact ⟨hstart, by omega, hr⟩
        · rintro ⟨hstart, hlt, hr⟩
          by_cases hslot : slot = k
          · subst hslot
            exact .inl ⟨r, hr, rfl, rfl⟩
          · exact .inr ⟨hstart, by omega, hr⟩
      · refine pairwise_append.2 ⟨?_, hsorted, ?_⟩
        · exact pairwise_map.2 (pairwise_of_forall fun _ _ => le_rfl)
        · rintro _ ha b hb
          obtain ⟨r, -, rfl⟩ := mem_map.1 ha
          have := ((hmem b.1 b.2).1 hb).2.1
          simp only
          omega

theorem highestBelow_eq_some {slot fs : Nat} {roots : List ρ}
    (h : s.highestBelow slot = some (fs, roots)) : fs < slot ∧ roots = s.blockSlotIndices fs ∧
      roots ≠ [] ∧ ∀ k, fs < k → k < slot → s.blockSlotIndices k = [] := by
  induction slot with
  | zero => cases h
  | succ slot ih =>
    unfold Store.highestBelow at h
    split_ifs at h with hempty
    · obtain ⟨hlt, hroots, hne, hnone⟩ := ih h
      refine ⟨by omega, hroots, hne, fun k hk hk' => ?_⟩
      by_cases hks : k = slot
      · exact hks ▸ hempty
      · exact hnone k hk (by omega)
    · cases h
      exact ⟨by omega, rfl, hempty, fun k hk hk' => by omega⟩

theorem highestBelow_eq_none {slot : Nat} (h : s.highestBelow slot = none) :
    ∀ k, k < slot → s.blockSlotIndices k = [] := by
  induction slot with
  | zero => simp
  | succ slot ih =>
    unfold Store.highestBelow at h
    split_ifs at h with hempty
    intro k hk
    by_cases hks : k = slot
    · exact hks ▸ hempty
    · exact ih h k (by omega)

/-- What is found below a slot: the roots of the highest slot that has any, or the genesis root if
there is none. -/
theorem highestRootsBelowSlot_eq_ok [DecidableEq ρ] [Zero ρ]
    (hzero : ∀ k, (0 : ρ) ∉ s.blockSlotIndices k) {slot fs : Nat} {roots : List ρ}
    (h : s.highestRootsBelowSlot slot = .ok (fs, roots)) :
    (fs < slot ∧ roots = s.blockSlotIndices fs ∧ roots ≠ [] ∧ ∀ k, fs < k → k < slot →
        s.blockSlotIndices k = []) ∨
      fs = 0 ∧ (∀ k, k < slot → s.blockSlotIndices k = []) ∧
        ∃ root, s.genesisBlockRoot = some root ∧ roots = [root] := by
  unfold Store.highestRootsBelowSlot at h
  cases hbelow : s.highestBelow slot with
  | none =>
    refine .inr ?_
    cases hroot : s.genesisBlockRoot with
    | none => simp [hbelow, hroot] at h
    | some root =>
      simp only [hbelow, hroot, Except.ok.injEq, Prod.mk.injEq] at h
      exact ⟨h.1.symm, highestBelow_eq_none hbelow, root, rfl, h.2.symm⟩
  | some found =>
    obtain ⟨fs', roots'⟩ := found
    obtain ⟨hlt, rfl, hne, hgap⟩ := highestBelow_eq_some hbelow
    have hnot : s.blockSlotIndices fs' ≠ [0] := fun heq => hzero fs' (by simp [heq])
    simp only [hbelow, if_neg hnot, Except.ok.injEq, Prod.mk.injEq] at h
    obtain ⟨rfl, rfl⟩ := h
    exact .inl ⟨hlt, rfl, hne, hgap⟩

theorem highestRootsBelowSlot_total [DecidableEq ρ] [Zero ρ] (h : s.genesisBlockRoot.isSome)
    (slot : Nat) : ∃ found, s.highestRootsBelowSlot slot = .ok found := by
  obtain ⟨root, hroot⟩ := Option.isSome_iff_exists.1 h
  unfold Store.highestRootsBelowSlot
  simp only [hroot]
  split
  · exact ⟨_, rfl⟩
  · split_ifs <;> exact ⟨_, rfl⟩

end Specs

end LightChain.BlockStore

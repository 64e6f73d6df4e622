import LightChain.BlockStore.Query
import LightChain.Library.Ancestry
import LightChain.Library.MachineInt

/-!
# The canonical block of a slot

`BlockRootForSlot` looks for the canonical block at or below a slot. It walks down the slot index
and asks for every root whether it is canonical, and takes the genesis root if none is. A canonical
block that is not stored is not in the index, and the walk passes it silently. So the root that is
returned is the right one just if the right block is stored or is the genesis block.
-/
namespace LightChain.Stategen
open Library BlockStore List

variable {ρ τ ε : Type} [Zero ρ]

/-- What the history reads, for a canonical chain that ends with the head. Some blocks of the chain
may not be stored. -/
structure CanonicalHistory (ρ τ ε : Type) [Zero ρ] where
  db : Store ρ τ
  isCanonical : ρ → Except ε Bool
  currentSlot : Nat
  tree : Ancestry ρ
  head : ρ
  currentSlot_lt : currentSlot < 2 ^ 64
  blocks_zero : db.blocks 0 = none
  slots : KeyIndexes db.blockSlotIndices db.slotOf
  blocks_slot {r : ρ} {b : Block ρ τ} (h : db.blocks r = some b) : tree.slot r = b.slot
  genesis {r : ρ} (h : db.genesisBlockRoot = some r) : tree.slot r = 0 ∧ tree.Ancestor r head
  isCanonical_iff {r : ρ} {b : Bool} (h : isCanonical r = .ok b) :
    b = true ↔ tree.Ancestor r head

inductive HistoryError (ε : Type) where
  | futureSlotRequested (requested current : Nat)
  | below (slotAbove : Nat) (cause : QueryError)
  | noBlocksBelowSlot (slotAbove : Nat)
  | checker (cause : ε)
  | noCanonicalBlockForSlot
  | genesisBlockRoot (cause : QueryError)
deriving DecidableEq, Repr

def HistoryError.message (text : ε → String) : HistoryError ε → String
  | .futureSlotRequested requested current =>
    "requested=" ++ toString requested ++ ", current=" ++ toString current ++
      ": cannot replay to future slots"
  | .below slotAbove e =>
    "error finding highest block w/ slot < " ++ toString slotAbove ++ ": " ++ e.message
  | .noBlocksBelowSlot slotAbove =>
    "slot=" ++ toString slotAbove ++ ": no blocks found in db below slot"
  | .checker e => "replayer could not check if block is canonical: " ++ text e
  | .noCanonicalBlockForSlot =>
    "no good block for slot: none of the blocks found in the db slot index are canonical"
  | .genesisBlockRoot e => e.message

namespace CanonicalHistory

theorem zero_not_listed (c : CanonicalHistory ρ τ ε) (k : Nat) : (0 : ρ) ∉ c.db.blockSlotIndices k := by
  rw [c.slots.mem_iff, Store.slotOf, c.blocks_zero]
  simp

section Model

variable [DecidableEq ρ] (c : CanonicalHistory ρ τ ε)

def bestForSlot : List ρ → Except (HistoryError ε) ρ
  | [] => .error .noCanonicalBlockForSlot
  | root :: roots =>
    match c.isCanonical root with
    | .error e => .error (.checker e)
    | .ok true => .ok root
    | .ok false => bestForSlot roots

def genesisBlockRoot : Except (HistoryError ε) ρ :=
  match c.db.genesisBlockRoot with
  | none => .error (.genesisBlockRoot .genesisRootNotFound)
  | some root => .ok root

theorem lt_of_highestRoots {slotAbove slot : Nat} {roots : List ρ}
    (h : c.db.highestRootsBelowSlot slotAbove = .ok (slot, roots)) (hslot : slot ≠ 0) :
    slot < slotAbove := by
  obtain ⟨hlt, -⟩ | ⟨hzero, -⟩ := highestRootsBelowSlot_eq_ok c.zero_not_listed h
  · exact hlt
  · exact absurd hzero hslot

/-- The walk down the slot index. -/
def searchBelow (slotAbove : Nat) : Except (HistoryError ε) ρ :=
  if 1 < slotAbove then
    match _h : c.db.highestRootsBelowSlot slotAbove with
    | .error e => .error (.below slotAbove e)
    | .ok (slot, roots) =>
      if roots = [] then .error (.noBlocksBelowSlot slotAbove)
      else
        match c.bestForSlot roots with
        | .ok r => .ok r
        | .error .noCanonicalBlockForSlot =>
          if _hslot : slot = 0 then c.genesisBlockRoot else searchBelow slot
        | .error e => .error e
  else c.genesisBlockRoot
termination_by slotAbove
decreasing_by exact c.lt_of_highestRoots _h _hslot

def blockRootForSlot (target : Nat) : Except (HistoryError ε) ρ :=
  if c.currentSlot < target then .error (.futureSlotRequested target c.currentSlot)
  else c.searchBelow (add64 target 1)

end Model

section Spec

variable {c : CanonicalHistory ρ τ ε} {r a : ρ} {slotAbove target : Nat}

/-- The canonical block with the highest slot not above the target. -/
structure IsBest (c : CanonicalHistory ρ τ ε) (target : Nat) (r : ρ) : Prop where
  canonical : c.tree.Ancestor r c.head
  slot_le : c.tree.slot r ≤ target
  last : ∀ b, c.tree.Ancestor b c.head → c.tree.slot b ≤ target → c.tree.slot b ≤ c.tree.slot r

/-- The search can reach the block: it is stored, or it is the genesis block. The slot above the
last one of 64 bits is zero, and nothing is searched. -/
def Kept (c : CanonicalHistory ρ τ ε) (target : Nat) : Prop :=
  ∃ a, c.IsBest target a ∧
    ((c.db.blocks a).isSome ∧ target + 1 < 2 ^ 64 ∨ c.db.genesisBlockRoot = some a)

theorem bestForSlot_ok [DecidableEq ρ] {roots : List ρ} (h : c.bestForSlot roots = .ok r) :
    r ∈ roots ∧ c.tree.Ancestor r c.head := by
  fun_induction bestForSlot c roots with
  | case1 => cases h
  | case2 root roots e he => cases h
  | case3 root roots htrue =>
    cases h
    exact ⟨mem_cons_self, (c.isCanonical_iff htrue).1 rfl⟩
  | case4 root roots hfalse ih => exact ⟨mem_cons_of_mem _ (ih h).1, (ih h).2⟩

theorem bestForSlot_none [DecidableEq ρ] {roots : List ρ}
    (h : c.bestForSlot roots = .error .noCanonicalBlockForSlot) :
    ∀ b ∈ roots, ¬ c.tree.Ancestor b c.head := by
  fun_induction bestForSlot c roots with
  | case1 => simp
  | case2 root roots e he => cases h
  | case3 root roots htrue => cases h
  | case4 root roots hfalse ih =>
    have hnot : ¬ c.tree.Ancestor root c.head := fun hroot =>
      Bool.false_ne_true ((c.isCanonical_iff hfalse).2 hroot)
    intro b hb
    rcases mem_cons.1 hb with rfl | hb
    · exact hnot
    · exact ih h b hb

theorem bestForSlot_total [DecidableEq ρ] (htotal : ∀ r, ∃ b, c.isCanonical r = .ok b)
    (roots : List ρ) : (∃ r, c.bestForSlot roots = .ok r) ∨
      c.bestForSlot roots = .error .noCanonicalBlockForSlot := by
  fun_induction bestForSlot c roots with
  | case1 => exact .inr rfl
  | case2 root roots e he =>
    obtain ⟨b, hb⟩ := htotal root
    cases hb.symm.trans he
  | case3 root roots htrue => exact .inl ⟨root, rfl⟩
  | case4 root roots hfalse ih => exact ih

theorem stored_listed (hr : (c.db.blocks r).isSome) :
    r ∈ c.db.blockSlotIndices (c.tree.slot r) := by
  obtain ⟨b, hb⟩ := Option.isSome_iff_exists.1 hr
  rw [c.slots.mem_iff, Store.slotOf, hb, c.blocks_slot hb]
  rfl

theorem slot_of_listed {slot : Nat} (hr : r ∈ c.db.blockSlotIndices slot) :
    (c.db.blocks r).isSome ∧ c.tree.slot r = slot := by
  rw [c.slots.mem_iff] at hr
  obtain ⟨b, hb, rfl⟩ := Option.map_eq_some_iff.1 hr
  exact ⟨by simp [hb], c.blocks_slot hb⟩

theorem eq_of_slot (hr : c.tree.Ancestor r c.head) (ha : c.tree.Ancestor a c.head)
    (h : c.tree.slot r = c.tree.slot a) : r = a := by
  rcases hr.total ha with hra | har
  · exact hra.eq_of_slot h.ge
  · exact (har.eq_of_slot h.le).symm

/-- What the search returns is canonical, and no stored canonical block that it may return is
above. -/
structure Found (c : CanonicalHistory ρ τ ε) (slotAbove : Nat) (r : ρ) : Prop where
  canonical : c.tree.Ancestor r c.head
  slot_lt : c.tree.slot r < max slotAbove 1
  stored : (c.db.blocks r).isSome ∧ 1 < slotAbove ∨ c.db.genesisBlockRoot = some r
  last : ∀ b, c.tree.Ancestor b c.head → (c.db.blocks b).isSome → c.tree.slot b < slotAbove →
    c.tree.slot b ≤ c.tree.slot r

/-- The genesis root is found where no stored block of the chain is above slot 0. -/
theorem found_genesis (h : c.genesisBlockRoot = .ok r)
    (hnone : ∀ b, c.tree.Ancestor b c.head → (c.db.blocks b).isSome →
      c.tree.slot b < slotAbove → c.tree.slot b = 0) : c.Found slotAbove r := by
  unfold genesisBlockRoot at h
  split at h
  · cases h
  next root hroot =>
  cases h
  obtain ⟨hzero, hcanonical⟩ := c.genesis hroot
  refine ⟨hcanonical, by omega, .inr hroot, fun b hb hstored hlt => ?_⟩
  rw [hnone b hb hstored hlt]
  exact Nat.zero_le _

theorem searchBelow_found [DecidableEq ρ] (h : c.searchBelow slotAbove = .ok r) :
    c.Found slotAbove r := by
  induction slotAbove using Nat.strong_induction_on with
  | _ slotAbove ih =>
  unfold searchBelow at h
  split_ifs at h with hlt
  swap
  · exact found_genesis h fun b _ _ hb => by omega
  split at h
  · cases h
  next slot roots hroots =>
  by_cases hempty : roots = []
  · rw [if_pos hempty] at h
    cases h
  rw [if_neg hempty] at h
  split at h
  · -- A canonical root of the slot.
    next r' hbest =>
    cases h
    obtain ⟨hmem, hcanonical⟩ := bestForSlot_ok hbest
    obtain ⟨hslot, rfl, -, hgap⟩ | ⟨rfl, hnone, root, hroot, rfl⟩ :=
      highestRootsBelowSlot_eq_ok c.zero_not_listed hroots
    · obtain ⟨hstored, hat⟩ := slot_of_listed hmem
      refine ⟨hcanonical, by omega, .inl ⟨hstored, hlt⟩, fun b _ hb hb' => ?_⟩
      by_contra hgt
      have hlisted := stored_listed hb
      rw [hgap _ (by omega) hb'] at hlisted
      exact absurd hlisted not_mem_nil
    · obtain rfl := mem_singleton.1 hmem
      refine ⟨hcanonical, ?_, .inr hroot, fun b _ hb hb' => ?_⟩
      · rw [(c.genesis hroot).1]
        omega
      · have hlisted := stored_listed hb
        rw [hnone _ hb'] at hlisted
        exact absurd hlisted not_mem_nil
  · -- No root of the slot is canonical.
    next hbest =>
    have hnot := bestForSlot_none hbest
    have hbelow : ∀ b, c.tree.Ancestor b c.head → (c.db.blocks b).isSome →
        c.tree.slot b < slotAbove → c.tree.slot b < slot := by
      intro b hcanonical hb hb'
      have hlisted := stored_listed hb
      obtain ⟨hslot, rfl, -, hgap⟩ | ⟨rfl, hnone, -⟩ :=
        highestRootsBelowSlot_eq_ok c.zero_not_listed hroots
      · by_contra hge
        rcases Nat.lt_or_eq_of_le (Nat.not_lt.1 hge) with hgt | heq
        · rw [hgap _ hgt hb'] at hlisted
          exact absurd hlisted not_mem_nil
        · exact hnot b (heq ▸ hlisted) hcanonical
      · rw [hnone _ hb'] at hlisted
        exact absurd hlisted not_mem_nil
    split_ifs at h with hslot
    · exact found_genesis h fun b hb hstored hb' => by
        have := hbelow b hb hstored hb'
        omega
    · have hslot' := c.lt_of_highestRoots hroots hslot
      obtain ⟨hcanonical, hlow, hstored, hlast⟩ := ih slot hslot' h
      exact ⟨hcanonical, by omega, hstored.imp_left fun h => ⟨h.1, hlt⟩,
        fun b hb hb' hlt' => hlast b hb hb' (hbelow b hb hb' hlt')⟩
  · cases h

/-- With a genesis root and a checker that does not fail the search ends with a root. -/
theorem searchBelow_total [DecidableEq ρ] (hgenesis : c.db.genesisBlockRoot.isSome)
    (htotal : ∀ r, ∃ b, c.isCanonical r = .ok b) (slotAbove : Nat) :
    ∃ r, c.searchBelow slotAbove = .ok r := by
  have hroot : ∃ r, c.genesisBlockRoot = .ok r := by
    obtain ⟨root, hroot⟩ := Option.isSome_iff_exists.1 hgenesis
    exact ⟨root, by simp [genesisBlockRoot, hroot]⟩
  induction slotAbove using Nat.strong_induction_on with
  | _ slotAbove ih =>
  unfold searchBelow
  by_cases hlt : 1 < slotAbove
  swap
  · rwa [if_neg hlt]
  rw [if_pos hlt]
  split
  · next e he =>
    obtain ⟨found, hfound⟩ := highestRootsBelowSlot_total hgenesis slotAbove
    cases hfound.symm.trans he
  next slot roots hroots =>
  have hne : roots ≠ [] := by
    obtain ⟨-, -, hne, -⟩ | ⟨-, -, root, -, rfl⟩ :=
      highestRootsBelowSlot_eq_ok c.zero_not_listed hroots
    · exact hne
    · simp
  rw [if_neg hne]
  rcases bestForSlot_total htotal roots with ⟨r, hr⟩ | hnone
  · exact ⟨r, by rw [hr]⟩
  · rw [hnone]
    dsimp only
    split_ifs with hslot
    · exact hroot
    · exact ih slot (c.lt_of_highestRoots hroots hslot)

theorem blockRootForSlot_found [DecidableEq ρ] (h : c.blockRootForSlot target = .ok r) :
    target ≤ c.currentSlot ∧ c.Found (add64 target 1) r := by
  unfold blockRootForSlot at h
  split_ifs at h with hfuture
  exact ⟨by omega, searchBelow_found h⟩

theorem slotAbove_eq (h : target < 2 ^ 64) :
    target + 1 < 2 ^ 64 ∧ add64 target 1 = target + 1 ∨ add64 target 1 = 0 := by
  by_cases hlast : target + 1 < 2 ^ 64
  · exact .inl ⟨hlast, add64_of_lt hlast⟩
  · obtain rfl : target = 2 ^ 64 - 1 := by omega
    exact .inr rfl

/-- If a root is returned, it is that of the canonical block for the target just if the search can
reach the block. A root is returned if the target is not in the future, a genesis root is stored
and the checker does not fail. -/
theorem blockRootForSlot_best_iff [DecidableEq ρ] (c : CanonicalHistory ρ τ ε) (target : Nat) :
    ((∀ r, c.blockRootForSlot target = .ok r → c.IsBest target r) ↔
      ((∃ r, c.blockRootForSlot target = .ok r) → c.Kept target)) ∧
    (target ≤ c.currentSlot → c.db.genesisBlockRoot.isSome →
      (∀ r, ∃ b, c.isCanonical r = .ok b) → ∃ r, c.blockRootForSlot target = .ok r) := by
  refine ⟨⟨fun h ⟨r, hr⟩ => ?_, fun h r hr => ?_⟩, fun hcurrent hgenesis htotal => ?_⟩
  · obtain ⟨hle, hfound⟩ := blockRootForSlot_found hr
    rcases slotAbove_eq (hle.trans_lt c.currentSlot_lt) with ⟨hlast, -⟩ | hwrap
    · exact ⟨r, h r hr, hfound.stored.imp_left fun h => ⟨h.1, hlast⟩⟩
    · exact ⟨r, h r hr, .inr (hfound.stored.resolve_left fun h => by omega)⟩
  · obtain ⟨hle, hfound⟩ := blockRootForSlot_found hr
    obtain ⟨a, ha, hkept⟩ := h ⟨r, hr⟩
    have hlow : c.tree.slot r ≤ target := by
      have := hfound.slot_lt
      rcases slotAbove_eq (hle.trans_lt c.currentSlot_lt) with ⟨-, habove⟩ | hwrap <;> omega
    have hhigh : c.tree.slot a ≤ c.tree.slot r := by
      rcases hkept with ⟨hstored, hlast⟩ | hroot
      · refine hfound.last a ha.canonical hstored ?_
        rw [add64_of_lt hlast]
        exact Nat.lt_succ_of_le ha.slot_le
      · rw [(c.genesis hroot).1]
        exact Nat.zero_le _
    have heq : a = r := eq_of_slot ha.canonical hfound.canonical
      (hhigh.antisymm (ha.last r hfound.canonical hlow))
    exact heq ▸ ha
  · unfold blockRootForSlot
    rw [if_neg (Nat.not_lt.2 hcurrent)]
    exact searchBelow_total hgenesis htotal _

/-- The genesis block 1 is stored, and its child 2 at slot 1 is canonical and not stored. -/
def withGap : CanonicalHistory Nat Unit Unit where
  db :=
    { Store.empty with
      blocks := Function.update (fun _ => none) 1 (some ⟨0, 0, ()⟩)
      blockSlotIndices := Function.update (fun _ => []) 0 [1]
      genesisBlockRoot := some 1 }
  isCanonical r := .ok (r = 1 ∨ r = 2)
  currentSlot := 1
  tree :=
    { slot := fun r => if r = 2 then 1 else 0
      parent := fun r => if r = 2 then some 1 else none
      slot_lt := by grind }
  head := 2
  currentSlot_lt := by decide
  blocks_zero := rfl
  slots := by
    refine ⟨fun k => ?_, fun k r => ?_⟩
    · by_cases hk : k = 0 <;> simp [hk]
    · by_cases hk : k = 0 <;> by_cases hr : r = 1 <;> simp [Store.slotOf, hk, hr, Ne.symm]
  blocks_slot := by
    intro r b h
    by_cases hr : r = 1
    · subst hr
      cases h
      rfl
    · simp [hr] at h
  genesis h := by
    cases h
    exact ⟨rfl, .step rfl .refl⟩
  isCanonical_iff := by
    rintro r b ⟨⟩
    rw [decide_eq_true_iff]
    constructor
    · rintro (rfl | rfl)
      · exact .step rfl .refl
      · exact .refl
    · rintro (_ | ⟨hparent, h⟩)
      · exact .inr rfl
      · obtain rfl := Option.some.inj hparent
        cases h with
        | refl => exact .inl rfl
        | step hparent _ => cases hparent

/-- The genesis root is returned for slot 1, which has a canonical block. -/
theorem older_root_returned : withGap.blockRootForSlot 1 = .ok 1 ∧ ¬ withGap.IsBest 1 1 ∧
    withGap.IsBest 1 2 := by
  refine ⟨?_, fun h => ?_, .refl, le_rfl, fun b hb _ => hb.slot_le⟩
  · unfold blockRootForSlot searchBelow
    rfl
  · exact absurd (h.last 2 .refl le_rfl) (by decide)

end Spec

end CanonicalHistory

end LightChain.Stategen

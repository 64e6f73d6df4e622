import Mathlib

/-!
# Trees of blocks

Every block has a slot and may name a parent, whose slot is smaller. So a walk to the
ancestors ends, and on the chain of a block there is at most one block of a slot.
`lastBefore` is the last block of a chain below a bound.
-/
namespace LightChain.Library

structure Ancestry (ρ : Type*) where
  slot : ρ → Nat
  parent : ρ → Option ρ
  slot_lt {r p : ρ} (h : parent r = some p) : slot p < slot r

namespace Ancestry

variable {ρ : Type*} (t : Ancestry ρ)

/-- The first block is on the chain that ends with the second. -/
inductive Ancestor (a : ρ) : ρ → Prop where
  | refl : Ancestor a a
  | step {r p : ρ} (hparent : t.parent r = some p) (h : Ancestor a p) : Ancestor a r

/-- The last block with a slot below the bound on the chain that ends with a block. -/
def lastBefore (r : ρ) (bound : Nat) : Option ρ :=
  if t.slot r < bound then some r
  else
    match _h : t.parent r with
    | some p => lastBefore p bound
    | none => none
termination_by t.slot r
decreasing_by exact t.slot_lt _h

variable {t} {a b r p : ρ} {bound : Nat}

theorem Ancestor.slot_le (h : t.Ancestor a r) : t.slot a ≤ t.slot r := by
  induction h with
  | refl => exact le_rfl
  | step hparent _ ih => exact ih.trans (t.slot_lt hparent).le

theorem Ancestor.eq_or_child (h : t.Ancestor a r) :
    a = r ∨ ∃ c, t.parent c = some a ∧ t.Ancestor c r := by
  induction h with
  | refl => exact .inl rfl
  | step hparent _ ih =>
    rcases ih with rfl | ⟨c, hc, hcr⟩
    · exact .inr ⟨_, hparent, .refl⟩
    · exact .inr ⟨c, hc, .step hparent hcr⟩

theorem Ancestor.total (ha : t.Ancestor a r) (hb : t.Ancestor b r) :
    t.Ancestor a b ∨ t.Ancestor b a := by
  induction ha with
  | refl => exact .inr hb
  | step hparent ha ih =>
    cases hb with
    | refl => exact .inl (.step hparent ha)
    | step hparent' hb =>
      obtain rfl := Option.some.inj (hparent.symm.trans hparent')
      exact ih hb

theorem Ancestor.eq_of_slot (ha : t.Ancestor a r) (hslot : t.slot r ≤ t.slot a) : a = r := by
  cases ha with
  | refl => rfl
  | step hparent h => exact absurd (h.slot_le.trans_lt (t.slot_lt hparent)) (Nat.not_lt.2 hslot)

theorem lastBefore_of_lt (h : t.slot r < bound) : t.lastBefore r bound = some r := by
  unfold lastBefore
  rw [if_pos h]

theorem lastBefore_of_parent (h : bound ≤ t.slot r) (hparent : t.parent r = some p) :
    t.lastBefore r bound = t.lastBefore p bound := by
  rw [lastBefore, if_neg (Nat.not_lt.2 h)]
  split
  · next q hq =>
    obtain rfl := Option.some.inj (hparent.symm.trans hq)
    rfl
  · next hnone =>
    rw [hnone] at hparent
    cases hparent

theorem lastBefore_of_no_parent (h : bound ≤ t.slot r) (hparent : t.parent r = none) :
    t.lastBefore r bound = none := by
  rw [lastBefore, if_neg (Nat.not_lt.2 h)]
  split
  · next q hq =>
    rw [hparent] at hq
    cases hq
  · rfl

theorem Ancestor.lastBefore_eq (h : t.Ancestor a r) (hbound : bound ≤ t.slot a) :
    t.lastBefore r bound = t.lastBefore a bound := by
  induction h with
  | refl => rfl
  | step hparent h ih =>
    have hle := hbound.trans (h.slot_le.trans (t.slot_lt hparent).le)
    rw [lastBefore_of_parent hle hparent, ih]

theorem lastBefore_eq_some (h : t.lastBefore r bound = some a) :
    t.Ancestor a r ∧ t.slot a < bound ∧
      ∀ b, t.Ancestor b r → t.slot b < bound → t.Ancestor b a := by
  fun_induction lastBefore t r bound with
  | case1 r hlt =>
    cases h
    exact ⟨.refl, hlt, fun b hb _ => hb⟩
  | case2 r hle p hparent ih =>
    obtain ⟨hap, hlt, hlast⟩ := ih h
    refine ⟨.step hparent hap, hlt, fun b hb hslot => ?_⟩
    cases hb with
    | refl => exact absurd hslot hle
    | step hparent' hb =>
      obtain rfl := Option.some.inj (hparent.symm.trans hparent')
      exact hlast b hb hslot
  | case3 r hle hparent => cases h

theorem lastBefore_bind {bound' : Nat} (h : bound ≤ bound') :
    (t.lastBefore r bound').bind (t.lastBefore · bound) = t.lastBefore r bound := by
  fun_induction lastBefore t r bound' with
  | case1 r hlt => rfl
  | case2 r hle p hparent ih =>
    rw [ih, lastBefore_of_parent (h.trans (Nat.not_lt.1 hle)) hparent]
  | case3 r hle hparent =>
    rw [lastBefore_of_no_parent (h.trans (Nat.not_lt.1 hle)) hparent]
    rfl

/-! ## Common ancestors -/

variable (t) in
/-- The common ancestor of two blocks that is later than all others. -/
structure LastCommon (a b m : ρ) : Prop where
  left : t.Ancestor m a
  right : t.Ancestor m b
  last : ∀ x, t.Ancestor x a → t.Ancestor x b → x = m ∨ t.slot x < t.slot m

theorem LastCommon.symm {m : ρ} (h : t.LastCommon a b m) : t.LastCommon b a m :=
  ⟨h.right, h.left, fun x hb ha => h.last x ha hb⟩

theorem LastCommon.unique {m m' : ρ} (h : t.LastCommon a b m) (h' : t.LastCommon a b m') :
    m = m' := by
  rcases h.last m' h'.left h'.right with heq | hlt
  · exact heq.symm
  · rcases h'.last m h.left h.right with heq | hlt'
    · exact heq
    · omega

theorem lastCommon_self : t.LastCommon a a a := by
  refine ⟨.refl, .refl, fun x hx _ => ?_⟩
  cases hx with
  | refl => exact .inl rfl
  | step hparent h => exact .inr (h.slot_le.trans_lt (t.slot_lt hparent))

/-- A later block has no part in the common ancestors, and gives way to its parent. -/
theorem ancestor_parent {x : ρ} (hne : r ≠ b) (hslot : t.slot b ≤ t.slot r)
    (hparent : t.parent r = some p) (hr : t.Ancestor x r) (hb : t.Ancestor x b) :
    t.Ancestor x p := by
  cases hr with
  | refl => exact absurd (hb.eq_of_slot hslot) hne
  | step hparent' h =>
    obtain rfl := Option.some.inj (hparent.symm.trans hparent')
    exact h

theorem LastCommon.of_parent {m : ρ} (hne : r ≠ b) (hslot : t.slot b ≤ t.slot r)
    (hparent : t.parent r = some p) (h : t.LastCommon p b m) : t.LastCommon r b m where
  left := .step hparent h.left
  right := h.right
  last x hr hb := h.last x (ancestor_parent hne hslot hparent hr hb) hb

end Ancestry

end LightChain.Library

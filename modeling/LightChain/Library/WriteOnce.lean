import Mathlib

/-!
# Maps that keep the first value of a key

A value is written only under a key that has none. Such a map only grows, and a value in it was
there before or is one of those that were written.
-/
namespace LightChain.Library

variable {κ α : Type*}

def Extends (m m' : κ → Option α) : Prop := ∀ k a, m k = some a → m' k = some a

theorem Extends.refl (m : κ → Option α) : Extends m m := fun _ _ h => h

theorem Extends.trans {m₁ m₂ m₃ : κ → Option α} (h₁ : Extends m₁ m₂) (h₂ : Extends m₂ m₃) :
    Extends m₁ m₃ := fun k a h => h₂ k a (h₁ k a h)

theorem Extends.isSome {m m' : κ → Option α} {k : κ} (h : Extends m m') (hk : (m k).isSome = true) :
    (m' k).isSome = true := by
  obtain ⟨a, ha⟩ := Option.isSome_iff_exists.1 hk
  exact Option.isSome_iff_exists.2 ⟨a, h k a ha⟩

variable [DecidableEq κ] (key : α → κ)

/-- The value is written if its key has none. -/
def putNew (m : κ → Option α) (a : α) : κ → Option α :=
  if (m (key a)).isSome then m else Function.update m (key a) (some a)

def putAll (m : κ → Option α) (as : List α) : κ → Option α := as.foldl (putNew key) m

variable {key} {m : κ → Option α} {a b : α} {k : κ}

theorem putNew_of_none (h : m (key a) = none) :
    putNew key m a = Function.update m (key a) (some a) := if_neg (by simp [h])

theorem putNew_of_some (h : m (key a) = some b) : putNew key m a = m := if_pos (by simp [h])

theorem extends_putNew (m : κ → Option α) (a : α) : Extends m (putNew key m a) := by
  intro k b hb
  cases ha : m (key a) with
  | none =>
    have hne : k ≠ key a := fun h => by simp [h, ha] at hb
    rwa [putNew_of_none ha, Function.update_of_ne hne]
  | some c => rwa [putNew_of_some ha]

theorem putNew_isSome (m : κ → Option α) (a : α) : (putNew key m a (key a)).isSome = true := by
  cases ha : m (key a) with
  | none => simp [putNew_of_none ha]
  | some c => simp [putNew_of_some ha, ha]

theorem putNew_eq_some (h : putNew key m a k = some b) : m k = some b ∨ (b = a ∧ k = key a) := by
  cases ha : m (key a) with
  | none =>
    by_cases hk : k = key a
    · rw [putNew_of_none ha, hk, Function.update_self] at h
      exact .inr ⟨(Option.some.inj h).symm, hk⟩
    · rw [putNew_of_none ha, Function.update_of_ne hk] at h
      exact .inl h
  | some c =>
    rw [putNew_of_some ha] at h
    exact .inl h

theorem extends_putAll (m : κ → Option α) (as : List α) : Extends m (putAll key m as) := by
  induction as generalizing m with
  | nil => exact .refl m
  | cons a as ih => exact (extends_putNew m a).trans (ih (putNew key m a))

theorem putAll_isSome {as : List α} (ha : a ∈ as) (m : κ → Option α) :
    (putAll key m as (key a)).isSome = true := by
  induction as generalizing m with
  | nil => cases ha
  | cons c as ih =>
    rcases List.mem_cons.1 ha with rfl | ha
    · exact (extends_putAll (putNew key m a) as).isSome (putNew_isSome m a)
    · exact ih ha (putNew key m c)

theorem putAll_eq_some {as : List α} (h : putAll key m as k = some b) :
    m k = some b ∨ (b ∈ as ∧ k = key b) := by
  induction as generalizing m with
  | nil => exact .inl h
  | cons a as ih =>
    rcases ih h with h | ⟨hb, hk⟩
    · rcases putNew_eq_some h with h | ⟨rfl, hk⟩
      · exact .inl h
      · exact .inr ⟨List.mem_cons_self, hk⟩
    · exact .inr ⟨List.mem_cons_of_mem _ hb, hk⟩

end LightChain.Library

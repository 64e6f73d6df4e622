import Mathlib

/-!
# Runs whose steps meet a condition

A run folds a step function over a list of calls. `Along` says that every call meets a
condition on the state right before it, and `Along.foldl` is the induction over such a run.
-/
namespace LightChain.Library

variable {σ α : Type*} {step : σ → α → σ} {condition : σ → α → Prop}

def Along (step : σ → α → σ) (condition : σ → α → Prop) : σ → List α → Prop
  | _, [] => True
  | s, c :: calls => condition s c ∧ Along step condition (step s c) calls

theorem along_append {s : σ} {xs ys : List α} : Along step condition s (xs ++ ys) ↔
    Along step condition s xs ∧ Along step condition (xs.foldl step s) ys := by
  induction xs generalizing s with
  | nil => simp [Along]
  | cons c xs ih => simp only [List.cons_append, Along, ih, List.foldl_cons, and_assoc]

theorem Along.foldl {I : σ → Prop} {s : σ} {calls : List α}
    (hcalls : Along step condition s calls) (hs : I s)
    (hstep : ∀ s c, I s → condition s c → I (step s c)) : I (calls.foldl step s) := by
  induction calls generalizing s with
  | nil => exact hs
  | cons c calls ih => exact ih hcalls.2 (hstep s c hs hcalls.1)

theorem along_congr {I : σ → Prop} {condition' : σ → α → Prop} {s : σ} {calls : List α}
    (hs : I s) (hiff : ∀ s c, I s → (condition s c ↔ condition' s c))
    (hstep : ∀ s c, I s → condition' s c → I (step s c)) :
    Along step condition s calls ↔ Along step condition' s calls := by
  induction calls generalizing s with
  | nil => exact Iff.rfl
  | cons c calls ih =>
    simp only [Along, hiff s c hs]
    exact and_congr_right fun hc => ih (hstep s c hs hc)

end LightChain.Library

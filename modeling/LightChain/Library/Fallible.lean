import Mathlib

/-!
# Loops that can fail

A fallible program is an `Except` computation. `bind_eq_ok` takes a successful sequence
apart, and the `foldlM` rules carry an invariant through a successful loop. `toOption`
forgets which error a program ends with: two programs that may meet their errors in a
different order are compared there.
-/
namespace LightChain.Library
open List

universe u v

variable {ε : Type u} {α σ : Type v} {x : Except ε α} {f : α → Except ε σ}

theorem bind_eq_ok {s : σ} : x >>= f = .ok s ↔ ∃ a, x = .ok a ∧ f a = .ok s := by
  cases x with
  | error e =>
    constructor
    · intro h
      cases h
    · rintro ⟨a, h, -⟩
      cases h
  | ok a => exact ⟨fun h => ⟨a, rfl, h⟩, fun ⟨b, hb, h⟩ => by cases hb; exact h⟩

theorem bind_eq_error {e : ε} :
    x >>= f = .error e ↔ x = .error e ∨ ∃ a, x = .ok a ∧ f a = .error e := by
  cases x with
  | error e' => exact ⟨fun h => .inl (by cases h; rfl), fun h => by
      obtain h | ⟨a, h, -⟩ := h <;> cases h; rfl⟩
  | ok a => exact ⟨fun h => .inr ⟨a, rfl, h⟩, fun h => by
      obtain h | ⟨b, h, hf⟩ := h <;> cases h; exact hf⟩

theorem ok_bind (a : α) (f : α → Except ε σ) : Except.ok a >>= f = f a := rfl

@[simp] theorem pure_eq_ok {a b : α} : (pure a : Except ε α) = .ok b ↔ a = b :=
  ⟨fun h => by cases h; rfl, fun h => by cases h; rfl⟩

theorem throw_if_eq_ok {c : Prop} [Decidable c] {e : ε} :
    (if c then .error e else pure ⟨⟩ : Except ε PUnit) = .ok ⟨⟩ ↔ ¬ c := by
  by_cases h : c <;> simp [h]

theorem ok_of_mapError {τ : Type u} {f : ε → τ} {a : α} (h : x.mapError f = .ok a) : x = .ok a := by
  cases x with
  | error e => cases h
  | ok b =>
    cases h
    rfl

variable {xs : List α}

theorem forM_eq_ok {f : α → Except ε PUnit} : xs.forM f = .ok ⟨⟩ ↔ ∀ a ∈ xs, f a = .ok ⟨⟩ := by
  induction xs with
  | nil => simp
  | cons a xs ih =>
    rw [forall_mem_cons, ← ih]
    change f a >>= (fun _ => xs.forM f) = _ ↔ _
    cases f a with
    | error e => simp [bind_eq_ok]
    | ok u => simp [ok_bind]

variable {f : σ → α → Except ε σ}

theorem foldlM_invariant {P : σ → Prop} (step : ∀ s a s', a ∈ xs → P s → f s a = .ok s' → P s')
    {s s' : σ} (init : P s) (run : xs.foldlM f s = .ok s') : P s' := by
  induction xs generalizing s with
  | nil =>
    cases run
    exact init
  | cons a xs ih =>
    rw [foldlM_cons] at run
    obtain ⟨t, ht, hrun⟩ := bind_eq_ok.mp run
    exact ih (fun s b s' hb => step s b s' (mem_cons_of_mem _ hb))
      (step s a t mem_cons_self init ht) hrun

theorem foldlM_total {P : σ → Prop} (step : ∀ s a, a ∈ xs → P s → ∃ s', f s a = .ok s' ∧ P s')
    {s : σ} (init : P s) : ∃ s', xs.foldlM f s = .ok s' ∧ P s' := by
  induction xs generalizing s with
  | nil => exact ⟨s, rfl, init⟩
  | cons a xs ih =>
    obtain ⟨t, ht, hP⟩ := step s a mem_cons_self init
    obtain ⟨s', hrun, hs'⟩ := ih (fun s b hb => step s b (mem_cons_of_mem _ hb)) hP
    exact ⟨s', by rw [foldlM_cons, ht, ok_bind, hrun], hs'⟩

theorem foldlM_keys {κ β : Type v} {f : σ → κ → Except ε σ} (get : σ → κ → β)
    (post : κ → β → β → Prop)
    (step : ∀ s k s', f s k = .ok s' → post k (get s k) (get s' k) ∧ ∀ j ≠ k, get s' j = get s j)
    {keys : List κ} (nodup : keys.Nodup) {s s' : σ} (run : keys.foldlM f s = .ok s') (j : κ) :
    (j ∈ keys → post j (get s j) (get s' j)) ∧ (j ∉ keys → get s' j = get s j) := by
  induction keys generalizing s with
  | nil =>
    cases run
    simp
  | cons k keys ih =>
    rw [foldlM_cons] at run
    obtain ⟨t, ht, hrun⟩ := bind_eq_ok.mp run
    obtain ⟨hk, hkeys⟩ := List.nodup_cons.mp nodup
    obtain ⟨hin, hout⟩ := ih hkeys hrun
    obtain ⟨hpost, hframe⟩ := step s k t ht
    constructor
    · intro hj
      obtain rfl | hj := List.mem_cons.mp hj
      · rwa [hout hk]
      · rw [← hframe j fun hjk => hk (hjk ▸ hj)]
        exact hin hj
    · intro hj
      rw [mem_cons, not_or] at hj
      obtain ⟨hne, hj⟩ := hj
      rw [hout hj, hframe j hne]

section Outcome

@[simp] theorem toOption_bind (x : Except ε α) (f : α → Except ε σ) :
    (x >>= f).toOption = x.toOption.bind fun a => (f a).toOption := by
  cases x <;> rfl

@[simp] theorem toOption_pure (a : α) : (pure a : Except ε α).toOption = some a := rfl

@[simp] theorem toOption_ok (a : α) : (Except.ok a : Except ε α).toOption = some a := rfl

@[simp] theorem toOption_error (e : ε) : (Except.error e : Except ε α).toOption = none := rfl

@[simp] theorem toOption_map (f : α → σ) (x : Except ε α) :
    (x.map f).toOption = x.toOption.map f := by
  cases x <;> rfl

@[simp] theorem toOption_functor_map (f : α → σ) (x : Except ε α) :
    (f <$> x).toOption = x.toOption.map f := toOption_map f x

@[simp] theorem toOption_mapError {τ : Type u} (f : ε → τ) (x : Except ε α) :
    (x.mapError f).toOption = x.toOption := by
  cases x <;> rfl

theorem toOption_eq_some {x : Except ε α} {a : α} : x.toOption = some a ↔ x = .ok a := by
  cases x <;> simp

variable {xs : List α}

theorem toOption_mapM_eq_none {f : α → Except ε σ} :
    (xs.mapM f).toOption = none ↔ ∃ a ∈ xs, (f a).toOption = none := by
  induction xs with
  | nil => simp
  | cons a xs ih =>
    rw [mapM_cons, toOption_bind]
    cases hfa : f a with
    | error e => simp [hfa]
    | ok b => simp [hfa, ← ih]

theorem toOption_foldlM (f : σ → α → Except ε σ) (xs : List α) (s : σ) :
    (xs.foldlM f s).toOption = xs.foldlM (fun s a => (f s a).toOption) s := by
  induction xs generalizing s with
  | nil => rfl
  | cons a xs ih =>
    rw [foldlM_cons, foldlM_cons, toOption_bind]
    exact congrArg _ (funext ih)

theorem foldlM_congr {f g : σ → α → Option σ} (h : ∀ s, ∀ a ∈ xs, f s a = g s a) (s : σ) :
    xs.foldlM f s = xs.foldlM g s := by
  induction xs generalizing s with
  | nil => rfl
  | cons a xs ih =>
    rw [foldlM_cons, foldlM_cons, h s a mem_cons_self]
    exact congrArg _ (funext (ih fun s b hb => h s b (mem_cons_of_mem _ hb)))

theorem foldlM_comm {f : σ → α → Option σ} {g : σ → Option σ} {P : σ → Prop}
    (comm : ∀ s, ∀ a ∈ xs, P s → (g s).bind (f · a) = (f s a).bind g)
    (keep : ∀ s, ∀ a ∈ xs, ∀ s', P s → f s a = some s' → P s') {s : σ} (init : P s) :
    (g s).bind (xs.foldlM f ·) = (xs.foldlM f s).bind g := by
  induction xs generalizing s with
  | nil => exact Option.bind_fun_some (g s)
  | cons a xs ih =>
    simp only [foldlM_cons, Option.bind_eq_bind]
    rw [← Option.bind_assoc, comm s a mem_cons_self init, Option.bind_assoc,
      Option.bind_assoc]
    cases hs : f s a with
    | none => rfl
    | some s' =>
      exact ih (fun s b hb => comm s b (mem_cons_of_mem _ hb))
        (fun s b hb => keep s b (mem_cons_of_mem _ hb)) (keep s a mem_cons_self s' init hs)

end Outcome

end LightChain.Library

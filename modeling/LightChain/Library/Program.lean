import Mathlib

/-!
# Programs that change a state and can fail

`EStateM ε σ α` keeps the changes made before a failure. `after` is the state a program
leaves in either case, `Within R` says that every run stays within the relation `R`, and
`bind_eq_ok` takes a successful run apart. A loop is a `foldlM` over a list.
-/
namespace LightChain.Library.Program

universe u

variable {ε σ : Type u} {α β : Type u}

/-- The state a program leaves, also when it fails. -/
def after (m : EStateM ε σ α) (s : σ) : σ :=
  match m s with
  | .ok _ t => t
  | .error _ t => t

/-- Run a program with another error in place of its own. -/
def mapError (f : ε → ε) (m : EStateM ε σ α) : EStateM ε σ α := fun s =>
  match m s with
  | .ok a t => .ok a t
  | .error e t => .error (f e) t

/-- Run a program and, if it fails, clean up. The outcome of the cleanup is ignored. -/
def withCleanup (m : EStateM ε σ α) (cleanup : EStateM ε σ β) : EStateM ε σ α := fun s =>
  match m s with
  | .ok a t => .ok a t
  | .error e t => .error e (after cleanup t)

section Run

variable {m : EStateM ε σ α} {f : α → EStateM ε σ β} {s t : σ} {a : α} {b : β} {e : ε}

theorem bind_run : (m >>= f) s = match m s with
    | .ok a t => f a t
    | .error e t => .error e t := rfl

@[simp] theorem pure_run : (pure a : EStateM ε σ α) s = .ok a s := rfl
@[simp] theorem throw_run : (throw e : EStateM ε σ α) s = .error e s := rfl
@[simp] theorem get_run : (get : EStateM ε σ σ) s = .ok s s := rfl
@[simp] theorem set_run : (set t : EStateM ε σ PUnit) s = .ok ⟨⟩ t := rfl
@[simp] theorem modify_run (g : σ → σ) : (modify g : EStateM ε σ PUnit) s = .ok ⟨⟩ (g s) := rfl

theorem bind_of_ok (h : m s = .ok a t) : (m >>= f) s = f a t := by rw [bind_run, h]

theorem bind_of_error (h : m s = .error e t) : (m >>= f) s = .error e t := by rw [bind_run, h]

theorem bind_eq_ok : (m >>= f) s = .ok b t ↔ ∃ a r, m s = .ok a r ∧ f a r = .ok b t := by
  rw [bind_run]
  cases m s <;> simp

@[simp] theorem get_bind_run (g : σ → EStateM ε σ β) : (get >>= g) s = g s s := rfl

@[simp] theorem modify_bind_run (g : σ → σ) (h : PUnit → EStateM ε σ β) :
    ((modify g : EStateM ε σ PUnit) >>= h) s = h ⟨⟩ (g s) := rfl

@[simp] theorem set_bind_run (h : PUnit → EStateM ε σ β) :
    ((set t : EStateM ε σ PUnit) >>= h) s = h ⟨⟩ t := rfl

@[simp] theorem pure_bind_run : ((pure a : EStateM ε σ α) >>= f) s = f a s := rfl

@[simp] theorem throw_bind_run : ((throw e : EStateM ε σ α) >>= f) s = .error e s := rfl

theorem after_of_ok (h : m s = .ok a t) : after m s = t := by rw [after, h]

theorem after_of_error (h : m s = .error e t) : after m s = t := by rw [after, h]

@[simp] theorem after_pure : after (pure a : EStateM ε σ α) s = s := rfl

@[simp] theorem after_throw : after (throw e : EStateM ε σ α) s = s := rfl

@[simp] theorem after_modify (g : σ → σ) : after (modify g : EStateM ε σ PUnit) s = g s := rfl

@[simp] theorem after_get_bind (g : σ → EStateM ε σ β) : after (get >>= g) s = after (g s) s := rfl

@[simp] theorem after_modify_bind (g : σ → σ) (h : PUnit → EStateM ε σ β) :
    after ((modify g : EStateM ε σ PUnit) >>= h) s = after (h ⟨⟩) (g s) := rfl

theorem after_bind_of_ok (h : m s = .ok a t) : after (m >>= f) s = after (f a) t := by
  rw [after, bind_of_ok h, after]

theorem after_bind_of_error (h : m s = .error e t) : after (m >>= f) s = t := by
  rw [after, bind_of_error h]

theorem after_bind_cases (m : EStateM ε σ α) (f : α → EStateM ε σ β) (s : σ) :
    after (m >>= f) s = after m s ∨ ∃ a, after (m >>= f) s = after (f a) (after m s) := by
  cases h : m s with
  | ok a t => exact .inr ⟨a, by rw [after_bind_of_ok h, after_of_ok h]⟩
  | error e t => exact .inl (by rw [after_bind_of_error h, after_of_error h])

@[simp] theorem after_bind_pure (b : β) : after (m >>= fun _ => pure b) s = after m s := by
  rcases after_bind_cases m (fun _ => pure b) s with h | ⟨_, h⟩ <;> exact h

theorem after_withCleanup_cases (m : EStateM ε σ α) (c : EStateM ε σ β) (s : σ) :
    after (withCleanup m c) s = after m s ∨ after (withCleanup m c) s = after c (after m s) := by
  unfold withCleanup
  cases h : m s with
  | ok a t => exact .inl (by simp only [after, h])
  | error e t => exact .inr (by simp only [after, h])

@[simp] theorem after_mapError (g : ε → ε) : after (mapError g m) s = after m s := by
  unfold after mapError
  cases m s <;> rfl

theorem mapError_of_ok {g : ε → ε} (h : m s = .ok a t) : mapError g m s = .ok a t := by
  rw [mapError, h]

theorem withCleanup_of_ok {c : EStateM ε σ β} (h : m s = .ok a t) :
    withCleanup m c s = .ok a t := by
  rw [withCleanup, h]

theorem withCleanup_of_error {c : EStateM ε σ β} (h : m s = .error e t) :
    withCleanup m c s = .error e (after c t) := by
  rw [withCleanup, h]

theorem mapError_eq_ok (g : ε → ε) : mapError g m s = .ok a t ↔ m s = .ok a t := by
  unfold mapError
  cases m s <;> simp

end Run

/-- Every run of the program stays within the relation. -/
def Within (R : σ → σ → Prop) (m : EStateM ε σ α) : Prop := ∀ s, R s (after m s)

section Within

variable {R : σ → σ → Prop} {m : EStateM ε σ α} {f : α → EStateM ε σ β}

theorem Within.pure [Std.Refl R] (a : α) : Within R (pure a : EStateM ε σ α) := fun s => refl s

theorem Within.throw [Std.Refl R] (e : ε) : Within R (throw e : EStateM ε σ α) := fun s => refl s

theorem Within.modify {g : σ → σ} (h : ∀ s, R s (g s)) :
    Within R (modify g : EStateM ε σ PUnit) := h

theorem Within.bind [IsTrans σ R] (hm : Within R m) (hf : ∀ a, Within R (f a)) :
    Within R (m >>= f) := by
  intro s
  rcases after_bind_cases m f s with h | ⟨a, h⟩ <;> rw [h]
  · exact hm s
  · exact IsTrans.trans _ _ _ (hm s) (hf a _)

/-- After reading the state, the rest of the program knows it. -/
theorem Within.get {g : σ → EStateM ε σ β} (h : ∀ s, R s (after (g s) s)) :
    Within R (get >>= g) := h

theorem Within.mapError {g : ε → ε} (h : Within R m) : Within R (mapError g m) := by
  intro s
  rw [after_mapError]
  exact h s

theorem Within.withCleanup [IsTrans σ R] {c : EStateM ε σ β} (hm : Within R m)
    (hc : Within R c) : Within R (withCleanup m c) := by
  intro s
  rcases after_withCleanup_cases m c s with h | h <;> rw [h]
  · exact hm s
  · exact IsTrans.trans _ _ _ (hm s) (hc _)

theorem Within.foldlM [Std.Refl R] [IsTrans σ R] {step : β → α → EStateM ε σ β} {xs : List α}
    (h : ∀ b, ∀ a ∈ xs, Within R (step b a)) (b : β) : Within R (xs.foldlM step b) := by
  induction xs generalizing b with
  | nil => exact .pure b
  | cons x xs ih =>
    rw [List.foldlM_cons]
    exact (h b x List.mem_cons_self).bind fun b' =>
      ih (fun b a ha => h b a (List.mem_cons_of_mem _ ha)) b'

end Within

/-- The relation between states that an invariant gives. -/
def Keeps (I : σ → Prop) (s t : σ) : Prop := I s → I t

instance (I : σ → Prop) : Std.Refl (Keeps I) := ⟨fun _ h => h⟩
instance (I : σ → Prop) : IsTrans σ (Keeps I) := ⟨fun _ _ _ hst htu h => htu (hst h)⟩

/-- Where a program succeeds, it does the same to the state under `f`. -/
def Respects (f : σ → σ) (m : EStateM ε σ α) : Prop :=
  ∀ s a t, m s = .ok a t → m (f s) = .ok a (f t)

section Respects

variable {f : σ → σ} {m : EStateM ε σ α} {k : α → EStateM ε σ β}

theorem Respects.pure (a : α) : Respects f (pure a : EStateM ε σ α) := by
  rintro s b t ⟨⟩
  rfl

theorem Respects.throw (e : ε) : Respects f (throw e : EStateM ε σ α) := nofun

theorem Respects.modify {g : σ → σ} (h : ∀ s, g (f s) = f (g s)) :
    Respects f (modify g : EStateM ε σ PUnit) := by
  rintro s b t ⟨⟩
  exact congrArg (EStateM.Result.ok _) (h s)

theorem Respects.bind (hm : Respects f m) (hk : ∀ a, Respects f (k a)) : Respects f (m >>= k) := by
  intro s b t hrun
  obtain ⟨a, r, hrm, hrk⟩ := bind_eq_ok.1 hrun
  rw [bind_of_ok (hm s a r hrm)]
  exact hk a r b t hrk

/-- The rest of the program reads nothing that `f` changes. -/
theorem Respects.get {g : σ → EStateM ε σ β} (hf : ∀ s, g (f s) = g s)
    (h : ∀ s, Respects f (g s)) : Respects f (get >>= g) := by
  intro s b t hrun
  rw [get_bind_run] at hrun ⊢
  rw [hf]
  exact h s s b t hrun

theorem Respects.mapError {g : ε → ε} (h : Respects f m) : Respects f (mapError g m) := by
  intro s a t hrun
  exact mapError_of_ok (h s a t ((mapError_eq_ok g).1 hrun))

theorem Respects.foldlM {step : β → α → EStateM ε σ β} {xs : List α}
    (h : ∀ b, ∀ a ∈ xs, Respects f (step b a)) (b : β) : Respects f (xs.foldlM step b) := by
  induction xs generalizing b with
  | nil => exact .pure b
  | cons x xs ih =>
    rw [List.foldlM_cons]
    exact (h b x List.mem_cons_self).bind fun b' =>
      ih (fun b a ha => h b a (List.mem_cons_of_mem _ ha)) b'

end Respects

end LightChain.Library.Program

import LightChain.Slashings.Pool
import LightChain.Library.Run

/-!
# Evidence in the slashing pool

A validator is accepted if an insertion makes an entry for it. It is still to be slashed if no
included slashing names it and it is slashable in every state the pool has seen. The pool should
then hold an entry whose slashing names it. It need not be the entry of the validator itself,
which is taken out when another slashing that names it is returned. That other slashing goes
with the entry of its own validator, and with it the last evidence.
-/
namespace LightChain.Slashings
open Library Epoch List

section WellFormed

variable {cfg : PoolConfig} {p : Pool} {st : BeaconState} {e : PendingAttesterSlashing}

/-- The entries are in the strict order of their validators, and name them. -/
structure Pool.WellFormed (p : Pool) : Prop where
  sorted : p.pendingAttesterSlashing.Pairwise fun a b => a.validatorToSlash < b.validatorToSlash
  named : ∀ e ∈ p.pendingAttesterSlashing, e.validatorToSlash ∈ e.attesterSlashing.slashedVal

theorem Pool.WellFormed.sublist {kept : List PendingAttesterSlashing} (h : p.WellFormed)
    (hkept : kept.Sublist p.pendingAttesterSlashing) {included : Nat → Bool} :
    Pool.WellFormed ⟨kept, included⟩ :=
  ⟨h.sorted.sublist hkept, fun e he => h.named e (hkept.mem he)⟩

theorem Pool.WellFormed.insertLoop {slashing : AttSlashing} {vals cantSlash : List Nat}
    {reason : String} (h : p.WellFormed) (hvals : ∀ v ∈ vals, v ∈ slashing.slashedVal) :
    (Pool.insertLoop cfg st slashing vals p cantSlash reason).1.WellFormed ∧
      ∀ e ∈ p.pendingAttesterSlashing,
        e ∈ (Pool.insertLoop cfg st slashing vals p cantSlash reason).1.pendingAttesterSlashing := by
  induction vals generalizing p cantSlash reason with
  | nil => exact ⟨h, fun _ he => he⟩
  | cons val vals ih =>
    have hvals' : ∀ v ∈ vals, v ∈ slashing.slashedVal :=
      fun v hv => hvals v (mem_cons_of_mem _ hv)
    unfold Pool.insertLoop
    match p.validatorSlashingPreconditionCheck cfg st val with
    | .error e => exact ⟨h, fun _ he => he⟩
    | .ok false => exact ih h hvals'
    | .ok true =>
      simp only
      split_ifs with hkey
      · exact ih h hvals'
      · rw [hasKey_iff h.sorted] at hkey
        have hnew : Pool.WellFormed { p with
            pendingAttesterSlashing :=
              insertKey (·.validatorToSlash) p.pendingAttesterSlashing ⟨slashing, val⟩ } := by
          refine ⟨pairwise_insertKey h.sorted fun y hy hval => hkey ⟨y, hy, hval⟩, ?_⟩
          intro e he
          rcases mem_insertKey.1 he with he | rfl
          · exact h.named e he
          · exact hvals val mem_cons_self
        refine ⟨(ih hnew hvals').1, fun e he => ?_⟩
        exact (ih hnew hvals').2 e (mem_insertKey.2 (.inl he))

theorem Pool.insertAttesterSlashing_fst (slashing : AttSlashing) (verified : Bool) :
    (p.insertAttesterSlashing cfg st slashing verified).1 =
      if verified then (Pool.insertLoop cfg st slashing slashing.slashedVal p [] "").1 else p := by
  unfold Pool.insertAttesterSlashing
  cases verified with
  | false => rfl
  | true =>
    simp only [Bool.not_true, Bool.false_eq_true, if_false, if_true]
    split
    · rfl
    · split_ifs <;> rfl

theorem Pool.WellFormed.markIncluded (h : p.WellFormed) (slashing : AttSlashing) :
    (p.markIncludedAttesterSlashing slashing).WellFormed ∧
      ∀ e, e ∈ (p.markIncludedAttesterSlashing slashing).pendingAttesterSlashing ↔
        e ∈ p.pendingAttesterSlashing ∧ e.validatorToSlash ∉ slashing.slashedVal := by
  unfold Pool.markIncludedAttesterSlashing
  generalize slashing.slashedVal = vals
  induction vals generalizing p with
  | nil => exact ⟨h, fun e => by simp⟩
  | cons val vals ih =>
    have hnext : Pool.WellFormed
        { pendingAttesterSlashing := eraseKey (·.validatorToSlash) p.pendingAttesterSlashing val
          included := Function.update p.included val true } := by
      rw [eraseKey_eq h.sorted]
      exact h.sublist filter_sublist
    obtain ⟨hwf, hmem⟩ := ih hnext
    refine ⟨hwf, fun e => ?_⟩
    rw [foldl_cons, hmem e, eraseKey_eq h.sorted]
    simp only [mem_filter, mem_cons, decide_eq_true_eq]
    grind

end WellFormed

section Reading

variable (cfg : PoolConfig) (p : Pool) (st : BeaconState)

/-- When its turn comes after `pending` was returned, the entry stays in the pool: nothing more
is returned, or its validator is not in the state, or it is slashable and not yet covered. -/
def Pool.Stays (maxSlashings : Nat) (pending : List AttSlashing) (e : PendingAttesterSlashing) :
    Prop :=
  maxSlashings ≤ pending.length ∨
    (∃ err, p.validatorSlashingPreconditionCheck cfg st e.validatorToSlash = .error err) ∨
    (p.validatorSlashingPreconditionCheck cfg st e.validatorToSlash = .ok true ∧
      ∀ s ∈ pending, e.validatorToSlash ∉ s.slashedVal)

variable {cfg p st} {e : PendingAttesterSlashing}

theorem exists_split_cons {α : Type*} {P : List α → Prop} {x y : α} {xs : List α} :
    (∃ before after, y :: xs = before ++ x :: after ∧ P before) ↔
      (x = y ∧ P []) ∨ ∃ before after, xs = before ++ x :: after ∧ P (y :: before) := by
  constructor
  · rintro ⟨before, after, heq, hP⟩
    cases before with
    | nil =>
      obtain ⟨rfl, rfl⟩ := cons.inj heq
      exact .inl ⟨rfl, hP⟩
    | cons z before =>
      rw [cons_append, cons.injEq] at heq
      obtain ⟨rfl, heq⟩ := heq
      exact .inr ⟨before, after, heq, hP⟩
  · rintro (⟨rfl, hP⟩ | ⟨before, after, rfl, hP⟩)
    · exact ⟨[], xs, rfl, hP⟩
    · exact ⟨y :: before, after, rfl, hP⟩

variable {entries : List PendingAttesterSlashing} {pending : List AttSlashing}
  {included : Nat → Bool} {maxSlashings : Nat}

theorem Pool.pendingLoop_of_limit (h : maxSlashings ≤ pending.length) :
    p.pendingLoop cfg st maxSlashings entries included pending = (pending, entries) := by
  cases entries with
  | nil => rfl
  | cons e entries =>
    unfold Pool.pendingLoop
    rw [if_pos h]

/-- The loop takes out the entries that do not stay after what is returned before their turn. -/
theorem Pool.mem_pendingLoop (hincluded : ∀ v, included v = true ↔ ∃ s ∈ pending, v ∈ s.slashedVal) :
    e ∈ (p.pendingLoop cfg st maxSlashings entries included pending).2 ↔
      ∃ before after, entries = before ++ e :: after ∧
        p.Stays cfg st maxSlashings
          (p.pendingLoop cfg st maxSlashings before included pending).1 e := by
  induction entries generalizing included pending with
  | nil => simp [Pool.pendingLoop]
  | cons x entries ih =>
    rw [exists_split_cons (P := fun before => p.Stays cfg st maxSlashings
      (p.pendingLoop cfg st maxSlashings before included pending).1 e)]
    by_cases hlimit : maxSlashings ≤ pending.length
    · simp only [Pool.pendingLoop_of_limit hlimit, Pool.Stays, hlimit, true_or, and_true]
      rw [mem_cons, mem_iff_append]
    · have hnil : (p.pendingLoop cfg st maxSlashings [] included pending).1 = pending := rfl
      rw [hnil]
      match hcheck : p.validatorSlashingPreconditionCheck cfg st x.validatorToSlash with
      | .error err =>
        have hstep : ∀ rest, p.pendingLoop cfg st maxSlashings (x :: rest) included pending =
            ((p.pendingLoop cfg st maxSlashings rest included pending).1,
              x :: (p.pendingLoop cfg st maxSlashings rest included pending).2) := by
          intro rest
          rw [Pool.pendingLoop, if_neg hlimit, hcheck]
        simp only [hstep, mem_cons, ih hincluded]
        refine or_congr_left ⟨fun he => ⟨he, ?_⟩, And.left⟩
        rw [he]
        exact .inr (.inl ⟨err, hcheck⟩)
      | .ok valid =>
        by_cases hdrop : (included x.validatorToSlash || !valid) = true
        · have hstep : ∀ rest, p.pendingLoop cfg st maxSlashings (x :: rest) included pending =
              p.pendingLoop cfg st maxSlashings rest included pending := by
            intro rest
            rw [Pool.pendingLoop, if_neg hlimit, hcheck]
            simp only [hdrop, if_true]
          simp only [hstep, ih hincluded]
          refine (or_iff_right ?_).symm
          rintro ⟨rfl, hlim | ⟨err, herr⟩ | ⟨hok, hnot⟩⟩
          · exact hlimit hlim
          · rw [hcheck] at herr
            cases herr
          · rw [hcheck] at hok
            cases hok
            obtain ⟨s, hs, hmem⟩ := (hincluded _).1 (by simpa using hdrop)
            exact hnot s hs hmem
        · have hstep : ∀ rest, p.pendingLoop cfg st maxSlashings (x :: rest) included pending =
              ((p.pendingLoop cfg st maxSlashings rest
                  (fun idx => included idx || decide (idx ∈ x.attesterSlashing.slashedVal))
                  (pending ++ [x.attesterSlashing])).1,
                x :: (p.pendingLoop cfg st maxSlashings rest
                  (fun idx => included idx || decide (idx ∈ x.attesterSlashing.slashedVal))
                  (pending ++ [x.attesterSlashing])).2) := by
            intro rest
            rw [Pool.pendingLoop, if_neg hlimit, hcheck]
            simp only [hdrop, if_false, Bool.false_eq_true]
          have hincluded' : ∀ v, (included v ||
              decide (v ∈ x.attesterSlashing.slashedVal)) = true ↔
              ∃ s ∈ pending ++ [x.attesterSlashing], v ∈ s.slashedVal := by
            intro v
            rw [Bool.or_eq_true, hincluded]
            grind
          simp only [hstep, mem_cons, ih hincluded']
          refine or_congr_left ⟨fun he => ⟨he, ?_⟩, And.left⟩
          have hkeep : included x.validatorToSlash = false ∧ valid = true := by simpa using hdrop
          rw [he]
          refine .inr (.inr ⟨by rw [hcheck, hkeep.2], fun s hs hmem => ?_⟩)
          rw [(hincluded _).2 ⟨s, hs, hmem⟩] at hkeep
          cases hkeep.1

theorem Pool.pendingLoop_sublist :
    (p.pendingLoop cfg st maxSlashings entries included pending).2.Sublist entries := by
  induction entries generalizing included pending with
  | nil => exact List.Sublist.slnil
  | cons x entries ih =>
    unfold Pool.pendingLoop
    split_ifs
    · exact Sublist.refl _
    · split
      · exact ih.cons_cons x
      · split_ifs
        · exact ih.cons x
        · exact ih.cons_cons x

end Reading

section Runs

variable (cfg : PoolConfig)

def Pool.Names (p : Pool) (v : Nat) : Prop :=
  ∃ e ∈ p.pendingAttesterSlashing, v ∈ e.attesterSlashing.slashedVal

def Slashable (st : BeaconState) (v : Nat) : Prop :=
  ∃ validator, st.validators[v]? = some validator ∧
    checkValidatorSlashable validator (currentEpoch cfg.toBeaconChainConfig st) = true

def Pool.Accepts (p : Pool) (call : Call) (v : Nat) : Prop :=
  (∃ e ∈ (p.step cfg call).pendingAttesterSlashing, e.validatorToSlash = v) ∧
    ∀ e ∈ p.pendingAttesterSlashing, e.validatorToSlash ≠ v

/-- The call includes a slashing of the validator, or passes a state that cannot slash it. -/
def Call.Settles (call : Call) (v : Nat) : Prop :=
  match call with
  | .insertSlashing st _ _ => ¬ Slashable cfg st v
  | .pending st _ => ¬ Slashable cfg st v
  | .markIncluded slashing => v ∈ slashing.slashedVal

/-- The pool, with the validators that were accepted and those that need no evidence any more. -/
structure Watch where
  pool : Pool
  accepted : Set Nat
  settled : Set Nat

def Watch.new : Watch := ⟨.new, ∅, ∅⟩

def Watch.step (w : Watch) (call : Call) : Watch where
  pool := w.pool.step cfg call
  accepted := w.accepted ∪ {v | w.pool.Accepts cfg call v}
  settled := w.settled ∪ {v | call.Settles cfg v}

/-- The validator was accepted and is still to be slashed. -/
def Watch.Owes (w : Watch) (v : Nat) : Prop := v ∈ w.accepted ∧ v ∉ w.settled

def Watch.HasEvidence (w : Watch) : Prop := ∀ v, w.Owes v → w.pool.Names v

/-- The entry is not taken out of the pool by the call. -/
def Pool.Retains (p : Pool) (call : Call) (e : PendingAttesterSlashing) : Prop :=
  match call with
  | .insertSlashing _ _ _ => True
  | .pending st noLimit =>
    ∃ before after, p.pendingAttesterSlashing = before ++ e :: after ∧
      p.Stays cfg st (maxSlashings cfg p st noLimit) (p.pendingLoop cfg st
        (maxSlashings cfg p st noLimit) before (fun _ => false) []).1 e
  | .markIncluded slashing => e.validatorToSlash ∉ slashing.slashedVal

/-- For every validator that is owed a slashing and that the call does not settle, the call does
not take out all entries that name it. -/
def Watch.Spares (w : Watch) (call : Call) : Prop :=
  ∀ v, w.Owes v → ¬ call.Settles cfg v →
    ∃ e ∈ w.pool.pendingAttesterSlashing, v ∈ e.attesterSlashing.slashedVal ∧
      w.pool.Retains cfg call e

variable {cfg} {p : Pool} {w : Watch} {call : Call} {v : Nat}

theorem Pool.WellFormed.step (h : p.WellFormed) (call : Call) : (p.step cfg call).WellFormed := by
  cases call with
  | insertSlashing st slashing verified =>
    simp only [Pool.step, Pool.insertAttesterSlashing_fst]
    cases verified with
    | false => exact h
    | true => exact (h.insertLoop fun v hv => hv).1
  | pending st noLimit => exact h.sublist Pool.pendingLoop_sublist
  | markIncluded slashing => exact (h.markIncluded slashing).1

/-- The entries that a call retains are still there, and only an insertion has others. -/
theorem Pool.WellFormed.mem_step (h : p.WellFormed) (call : Call) (e : PendingAttesterSlashing) :
    (e ∈ p.pendingAttesterSlashing ∧ p.Retains cfg call e →
        e ∈ (p.step cfg call).pendingAttesterSlashing) ∧
      (e ∈ (p.step cfg call).pendingAttesterSlashing →
        (∃ st slashing verified, call = .insertSlashing st slashing verified) ∨
          e ∈ p.pendingAttesterSlashing ∧ p.Retains cfg call e) := by
  cases call with
  | insertSlashing st slashing verified =>
    refine ⟨fun he => ?_, fun _ => .inl ⟨st, slashing, verified, rfl⟩⟩
    simp only [Pool.step, Pool.insertAttesterSlashing_fst]
    cases verified with
    | false => exact he.1
    | true => exact (h.insertLoop fun v hv => hv).2 e he.1
  | pending st noLimit =>
    have hmem : e ∈ (p.step cfg (.pending st noLimit)).pendingAttesterSlashing ↔
        p.Retains cfg (.pending st noLimit) e :=
      Pool.mem_pendingLoop fun v => by simp
    rw [hmem]
    refine ⟨And.right, fun he => .inr ⟨?_, he⟩⟩
    obtain ⟨before, after, heq, -⟩ := he
    rw [heq]
    exact mem_append_right _ mem_cons_self
  | markIncluded slashing =>
    have hmem := (h.markIncluded slashing).2 e
    exact ⟨hmem.2, fun he => .inr (hmem.1 he)⟩

theorem Watch.HasEvidence.step (h : w.HasEvidence) (hpool : w.pool.WellFormed) :
    (w.step cfg call).HasEvidence ↔ w.Spares cfg call := by
  constructor
  · intro hnext v hv hsettles
    have hinsert (hcall : ∃ st slashing verified, call = .insertSlashing st slashing verified) :
        ∃ e ∈ w.pool.pendingAttesterSlashing, v ∈ e.attesterSlashing.slashedVal ∧
          w.pool.Retains cfg call e := by
      obtain ⟨st, slashing, verified, rfl⟩ := hcall
      obtain ⟨e, he, hnames⟩ := h v hv
      exact ⟨e, he, hnames, trivial⟩
    obtain ⟨e, he, hnames⟩ := hnext v ⟨.inl hv.1, fun hmem => hmem.elim hv.2 hsettles⟩
    rcases (hpool.mem_step call e).2 he with hcall | ⟨he, hretains⟩
    · exact hinsert hcall
    · exact ⟨e, he, hnames, hretains⟩
  · rintro hspares v ⟨haccepted, hsettled⟩
    obtain ⟨hbefore, hcall⟩ := not_or.1 hsettled
    rcases haccepted with haccepted | ⟨⟨e, he, rfl⟩, -⟩
    · obtain ⟨e, he, hnames, hretains⟩ := hspares v ⟨haccepted, hbefore⟩ hcall
      exact ⟨e, (hpool.mem_step call e).1 ⟨he, hretains⟩, hnames⟩
    · exact ⟨e, he, (hpool.step call).named e he⟩

def threeValidators : BeaconState where
  version := .electra
  slot := 0
  validators := [{}, {}, {}]
  balances := []
  inactivityScores := []
  previousEpochParticipation := []
  currentEpochParticipation := []
  finalizedCheckpointEpoch := 0
  earliestExitEpoch := 0
  exitBalanceToConsume := 0

end Runs

end LightChain.Slashings

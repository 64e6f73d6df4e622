import LightChain.Electra.Deposits

/-!
# The batch and the sequential order

A deposit for a validator of the registry touches only that validator's balance, and a
collected deposit never does. So the loop's credits commute with the batch, and the batch
may be moved to the places where the sequential specification applies its deposits.
-/
namespace LightChain.Electra
open Library Epoch List Option Function

section Step

variable {cfg : BeaconChainConfig} {v : Verifier} {st st' : State} {d : PendingDeposit}

theorem validatorIndexByPubkey_eq_some {key : BitVec 384} {i : Nat} :
    st.validatorIndexByPubkey key = some i ↔
      st.valIdxMap key = some i ∧ i < st.validators.length := by
  simp [State.validatorIndexByPubkey, filter_eq_some_iff]

theorem toOption_increaseBalance (i a : Nat) :
    (increaseBalance st i a).toOption =
      st.balances[i]?.bind fun bal => (safeAdd64 bal a).map (st.updateBalancesAtIndex i) := by
  unfold increaseBalance
  cases st.balances[i]? with
  | none => rfl
  | some bal =>
    dsimp only [bind_some]
    cases safeAdd64 bal a <;> rfl

theorem applyPendingDeposit_of_known {i : Nat}
    (hk : st.validatorIndexByPubkey d.publicKey = some i) :
    applyPendingDeposit cfg v st d = increaseBalance st i d.amount := by
  rw [applyPendingDeposit, hk]

theorem applyPendingDeposit_of_new (hk : st.validatorIndexByPubkey d.publicKey = none) :
    applyPendingDeposit cfg v st d =
      .ok (if v.isValidDepositSignature d then addValidatorToRegistry cfg st d else st) := by
  rw [applyPendingDeposit, hk]
  cases v.isValidDepositSignature d <;> rfl

theorem applyPendingDeposit_cases (h : applyPendingDeposit cfg v st d = .ok st') :
    (∃ i bal, st.validatorIndexByPubkey d.publicKey = some i ∧ st.balances[i]? = some bal ∧
      st' = st.updateBalancesAtIndex i (bal + d.amount)) ∨
    st.validatorIndexByPubkey d.publicKey = none ∧
      (v.isValidDepositSignature d = true ∧ st' = addValidatorToRegistry cfg st d ∨
        v.isValidDepositSignature d = false ∧ st' = st) := by
  cases hk : st.validatorIndexByPubkey d.publicKey with
  | none =>
    rw [applyPendingDeposit_of_new hk] at h
    cases h
    refine .inr ⟨rfl, ?_⟩
    cases v.isValidDepositSignature d <;> simp
  | some i =>
    rw [applyPendingDeposit_of_known hk] at h
    have ho := toOption_eq_some.mpr h
    rw [toOption_increaseBalance, bind_eq_some_iff] at ho
    obtain ⟨bal, hbal, ho⟩ := ho
    obtain ⟨c, hc, rfl⟩ := Option.map_eq_some_iff.mp ho
    obtain ⟨-, rfl⟩ := safeAdd64_eq_some.mp hc
    exact .inl ⟨i, bal, rfl, hbal, rfl⟩

end Step

/-- `st'` has the validators of `st`, and new ones that have not left. -/
structure Extends (st st' : State) : Prop where
  known : ∀ key i, st.validatorIndexByPubkey key = some i →
    st'.validatorIndexByPubkey key = some i
  new : ∀ key i, st'.validatorIndexByPubkey key = some i →
    st.validatorIndexByPubkey key = none → st.validators.length ≤ i
  validators : ∃ added, st'.validators = st.validators ++ added ∧
    ∀ w ∈ added, w.exitEpoch = farFutureEpoch ∧ w.withdrawableEpoch = farFutureEpoch
  eth1DepositIndex : st'.eth1DepositIndex = st.eth1DepositIndex

section Extends

variable {cfg : BeaconChainConfig} {v : Verifier} {st st' st'' : State} {d : PendingDeposit}

theorem Extends.refl (st : State) : Extends st st where
  known _ _ h := h
  new _ _ h h' := by rw [h] at h'; cases h'
  validators := ⟨[], by simp⟩
  eth1DepositIndex := rfl

theorem Extends.length_le (h : Extends st st') : st.validators.length ≤ st'.validators.length := by
  obtain ⟨added, hadd, -⟩ := h.validators
  rw [hadd, length_append]
  exact Nat.le_add_right _ _

theorem Extends.trans (h : Extends st st') (h' : Extends st' st'') : Extends st st'' where
  known key i hi := h'.known key i (h.known key i hi)
  new key i hi hnone := by
    cases hm : st'.validatorIndexByPubkey key with
    | none => exact h.length_le.trans (h'.new key i hi hm)
    | some j =>
      have hj := h'.known key j hm
      rw [hi] at hj
      cases hj
      exact h.new key i hm hnone
  validators := by
    obtain ⟨a, ha, hfar⟩ := h.validators
    obtain ⟨a', ha', hfar'⟩ := h'.validators
    refine ⟨a ++ a', by rw [ha', ha, append_assoc], fun w hw => ?_⟩
    exact (List.mem_append.mp hw).elim (hfar w) (hfar' w)
  eth1DepositIndex := h'.eth1DepositIndex.trans h.eth1DepositIndex

theorem extends_updateBalancesAtIndex (i val : Nat) :
    Extends st (st.updateBalancesAtIndex i val) where
  known _ _ h := h
  new _ _ h h' := by
    rw [show st.validatorIndexByPubkey _ = _ from h] at h'
    cases h'
  validators := ⟨[], by simp [State.updateBalancesAtIndex]⟩
  eth1DepositIndex := rfl

theorem extends_addValidatorToRegistry (hd : st.validatorIndexByPubkey d.publicKey = none) :
    Extends st (addValidatorToRegistry cfg st d) where
  known key i hi := by
    obtain ⟨hmap, hlt⟩ := validatorIndexByPubkey_eq_some.mp hi
    have hne : key ≠ d.publicKey := by
      rintro rfl
      rw [hd] at hi
      cases hi
    refine validatorIndexByPubkey_eq_some.mpr ⟨?_, ?_⟩
    · exact (update_of_ne hne _ _).trans hmap
    · exact hlt.trans_le (by simp [addValidatorToRegistry])
  new key i hi hnone := by
    obtain ⟨hmap, -⟩ := validatorIndexByPubkey_eq_some.mp hi
    by_contra hlt
    by_cases hk : key = d.publicKey
    · subst hk
      -- the key itself is stored at the end of the registry
      have : some st.validators.length = some i :=
        (update_self d.publicKey _ st.valIdxMap).symm.trans hmap
      grind
    · have hold : st.valIdxMap key = some i := (update_of_ne hk _ _).symm.trans hmap
      rw [validatorIndexByPubkey_eq_some.mpr ⟨hold, not_le.mp hlt⟩] at hnone
      cases hnone
  validators := ⟨_, rfl, by simp [getValidatorFromDeposit]⟩
  eth1DepositIndex := rfl

theorem extends_applyPendingDeposit (h : applyPendingDeposit cfg v st d = .ok st') :
    Extends st st' := by
  rcases applyPendingDeposit_cases h with ⟨i, bal, -, -, rfl⟩ | ⟨hd, ⟨-, rfl⟩ | ⟨-, rfl⟩⟩
  · exact extends_updateBalancesAtIndex i _
  · exact extends_addValidatorToRegistry hd
  · exact .refl _

/-- The deposits applied before do not change how a deposit is classified: the validators
added on the way have not left. -/
theorem Extends.validatorStatus_eq {b : Bounds} (h : Extends st st') (d : PendingDeposit) :
    validatorStatus b st' d = validatorStatus b st d := by
  obtain ⟨added, hadd, hfar⟩ := h.validators
  unfold validatorStatus State.validatorAtIndex
  cases hd : st.validatorIndexByPubkey d.publicKey with
  | some i =>
    have hlt := (validatorIndexByPubkey_eq_some.mp hd).2
    rw [h.known _ i hd]
    dsimp only
    rw [hadd, getElem?_append_left hlt]
  | none =>
    cases hd' : st'.validatorIndexByPubkey d.publicKey with
    | none => rfl
    | some i =>
      have hlt := (validatorIndexByPubkey_eq_some.mp hd').2
      have hle := h.new _ i hd' hd
      have hmem : st'.validators[i] ∈ added := by
        simp only [hadd, getElem_append_right hle]
        exact getElem_mem _
      obtain ⟨hexit, hwithdrawable⟩ := hfar _ hmem
      have hnext := b.nextEpoch_lt
      have hfuture : ¬ farFutureEpoch < b.nextEpoch := by
        unfold farFutureEpoch
        omega
      simp [getElem?_eq_getElem hlt, hexit, hwithdrawable, hfuture]

end Extends

section Commute

variable {cfg : BeaconChainConfig} {v : Verifier}

@[simp] theorem balances_updateBalancesAtIndex (st : State) (i x : Nat) :
    (st.updateBalancesAtIndex i x).balances = st.balances.set i x := rfl

theorem increaseBalance_comm (st : State) {i j : Nat} (hij : i ≠ j) (a c : Nat) :
    ((increaseBalance st i a).toOption.bind fun s => (increaseBalance s j c).toOption) =
      (increaseBalance st j c).toOption.bind fun s => (increaseBalance s i a).toOption := by
  -- the second credit reads its balance as the first one found it
  have after : ∀ {i j : Nat} (a c : Nat), i ≠ j →
      ((increaseBalance st i a).toOption.bind fun s => (increaseBalance s j c).toOption) =
        st.balances[i]?.bind fun x => (safeAdd64 x a).bind fun x' =>
          st.balances[j]?.bind fun y => (safeAdd64 y c).map fun y' =>
            (st.updateBalancesAtIndex i x').updateBalancesAtIndex j y' := by
    intro i j a c hij
    simp only [toOption_increaseBalance, bind_assoc, bind_map, comp_def,
      balances_updateBalancesAtIndex, getElem?_set_ne hij]
  rw [after a c hij, after c a hij.symm]
  cases st.balances[i]? <;> cases st.balances[j]? <;> simp
  rename_i x y
  cases safeAdd64 x a <;> cases safeAdd64 y c <;> simp [State.updateBalancesAtIndex, set_comm _ _ hij]

variable {i : Nat}

theorem increaseBalance_addValidator_comm (st : State) (d : PendingDeposit)
    (hi : i < st.validators.length) (a : Nat) :
    ((increaseBalance st i a).toOption.map fun s => addValidatorToRegistry cfg s d) =
      (increaseBalance (addValidatorToRegistry cfg st d) i a).toOption := by
  have hb : i < st.balances.length := by rwa [st.length_balances]
  rw [toOption_increaseBalance, toOption_increaseBalance,
    show (addValidatorToRegistry cfg st d).balances[i]? = st.balances[i]? from
      getElem?_append_left hb]
  cases st.balances[i]? with
  | none => rfl
  | some x =>
    cases hx : safeAdd64 x a with
    | none => simp [hx]
    | some y =>
      simp [hx, addValidatorToRegistry, State.updateBalancesAtIndex, set_append_left _ _ hb]

def Avoids (i : Nat) (ds : List PendingDeposit) (st : State) : Prop :=
  i < st.validators.length ∧ ∀ d ∈ ds, st.validatorIndexByPubkey d.publicKey ≠ some i

variable {ds : List PendingDeposit}

theorem Avoids.apply {st st' : State} (h : Avoids i ds st) {d : PendingDeposit}
    (hd : applyPendingDeposit cfg v st d = .ok st') : Avoids i ds st' := by
  have hext := extends_applyPendingDeposit hd
  refine ⟨h.1.trans_le hext.length_le, fun e he hi => ?_⟩
  cases hk : st.validatorIndexByPubkey e.publicKey with
  | none => exact absurd (hext.new _ i hi hk) (not_le.mpr h.1)
  | some j =>
    rw [hext.known _ j hk] at hi
    cases hi
    exact h.2 e he hk

theorem increaseBalance_apply_comm {st : State} {d : PendingDeposit} (h : Avoids i [d] st) (a : Nat) :
    ((increaseBalance st i a).toOption.bind fun s => (applyPendingDeposit cfg v s d).toOption) =
      (applyPendingDeposit cfg v st d).toOption.bind fun s =>
        (increaseBalance s i a).toOption := by
  -- a credit changes no key, so the deposit takes the same branch after it
  have same : ∀ s, (increaseBalance st i a).toOption = some s →
      s.validatorIndexByPubkey d.publicKey = st.validatorIndexByPubkey d.publicKey := by
    intro s hs
    rw [toOption_increaseBalance, bind_eq_some_iff] at hs
    obtain ⟨bal, -, hs⟩ := hs
    obtain ⟨c, -, rfl⟩ := Option.map_eq_some_iff.mp hs
    rfl
  cases hk : st.validatorIndexByPubkey d.publicKey with
  | some j =>
    have hij : i ≠ j := by
      rintro rfl
      exact h.2 d mem_cons_self hk
    rw [applyPendingDeposit_of_known hk, ← increaseBalance_comm st hij a d.amount]
    apply Option.bind_congr
    intro s hs
    rw [applyPendingDeposit_of_known ((same s hs).trans hk)]
  | none =>
    rw [applyPendingDeposit_of_new hk, toOption_ok, bind_some]
    have hbranch : ((increaseBalance st i a).toOption.bind fun s =>
        (applyPendingDeposit cfg v s d).toOption) =
        (increaseBalance st i a).toOption.map fun s =>
          if v.isValidDepositSignature d then addValidatorToRegistry cfg s d else s := by
      rw [map_eq_bind]
      apply Option.bind_congr
      intro s hs
      rw [applyPendingDeposit_of_new ((same s hs).trans hk)]
      rfl
    rw [hbranch]
    cases v.isValidDepositSignature d with
    | false => exact map_id'
    | true => exact increaseBalance_addValidator_comm st d h.1 a

/-- A credit of the loop may be made after the deposits collected so far. -/
theorem increaseBalance_batch_comm {st : State} (h : Avoids i ds st) (a : Nat) :
    ((increaseBalance st i a).toOption.bind fun s =>
        (ds.foldlM (applyPendingDeposit cfg v) s).toOption) =
      (ds.foldlM (applyPendingDeposit cfg v) st).toOption.bind fun s =>
        (increaseBalance s i a).toOption := by
  simp only [toOption_foldlM]
  apply foldlM_comm (P := Avoids i ds) (g := fun s => (increaseBalance s i a).toOption) _ _ h
  · intro s d hd hs
    exact increaseBalance_apply_comm ⟨hs.1, by simpa using hs.2 d hd⟩ a
  · intro s d _ s' hs hstep
    exact hs.apply (toOption_eq_some.mp hstep)

/-- With the batch's verdict, each collected deposit is applied as on its own. -/
theorem toOption_batchProcess (st : State) (ds : List PendingDeposit) :
    (batchProcessNewPendingDeposits cfg v st ds).toOption =
      (ds.foldlM (applyPendingDeposit cfg v) st).toOption := by
  unfold batchProcessNewPendingDeposits
  split_ifs with hnil
  · rw [List.length_eq_zero_iff.mp hnil]
    rfl
  · rw [toOption_foldlM, toOption_foldlM]
    apply foldlM_congr
    intro s d hd
    have hsig : (if !v.batchVerifyPendingDepositsSignatures ds then v.isValidDepositSignature d
        else v.batchVerifyPendingDepositsSignatures ds) = v.isValidDepositSignature d := by
      rw [v.batch_eq_all]
      cases hall : ds.all v.isValidDepositSignature with
      | false => rfl
      | true => exact (List.all_eq_true.mp hall d hd).symm
    unfold processNewPendingDeposit applyPendingDeposit
    rw [hsig]
    cases s.validatorIndexByPubkey d.publicKey <;> simp

end Commute

section Loop

variable (cfg : BeaconChainConfig) (v : Verifier) (b : Bounds) (queue : List PendingDeposit)

def outcome (credit : Progress → PendingDeposit → Except DepositError Progress)
    (next : Progress → Option State) (ds : List PendingDeposit) (p : Progress) : Option State :=
  (depositLoop cfg b credit ds p).toOption.bind next

variable {cfg b}

theorem outcome_cons {credit : Progress → PendingDeposit → Except DepositError Progress}
    {next : Progress → Option State} (d : PendingDeposit) (ds : List PendingDeposit)
    (p : Progress) :
    outcome cfg b credit next (d :: ds) p =
      if stopsBefore cfg b p d then next p
      else (validatorStatus b p.st d).toOption.bind fun status =>
        if status.2 then
          (credit p d).toOption.bind fun p => outcome cfg b credit next ds p.moveOn
        else if status.1 then outcome cfg b credit next ds (p.postpone d).moveOn
        else if add64 p.processedAmount d.amount > b.availableForProcessing then
          next { p with isChurnLimitReached := true }
        else (credit (p.consume d) d).toOption.bind fun p =>
          outcome cfg b credit next ds p.moveOn := by
  unfold outcome
  rw [depositLoop]
  by_cases hstop : stopsBefore cfg b p d = true
  · rw [if_pos hstop, if_pos hstop]
    rfl
  · rw [if_neg hstop, if_neg hstop]
    cases validatorStatus b p.st d with
    | error e => rfl
    | ok status =>
      rw [toOption_bind, toOption_ok, bind_some, bind_some]
      dsimp only
      split_ifs
      · rw [toOption_bind, bind_assoc]
      · rfl
      · rfl
      · rw [toOption_bind, bind_assoc]

variable (cfg b)

/-- The loop's variables with another state, and nothing collected. -/
def Progress.withState (p : Progress) (st : State) : Progress :=
  { p with st, toBatchVerify := [] }

def Progress.applied (p : Progress) : Option State :=
  (p.toBatchVerify.foldlM (applyPendingDeposit cfg v) p.st).toOption

/-- The rest of the run, when nothing is collected. -/
def settled (p : Progress) : Option State := some (p.settle b queue)

theorem toOption_finish (p : Progress) :
    (finish cfg b v queue p).toOption =
      (p.applied cfg v).bind fun st => settled b queue (p.withState st) := by
  unfold finish
  rw [toOption_bind, toOption_mapError, toOption_batchProcess]
  rfl

/-- Every collected deposit has a new key. -/
def Progress.CollectsNew (p : Progress) : Prop :=
  ∀ d ∈ p.toBatchVerify, p.st.validatorIndexByPubkey d.publicKey = none

/-- Crediting a deposit before the batch or after it is the same. -/
def Progress.CreditCommutes (p : Progress) (d : PendingDeposit) : Prop :=
  ∀ k : Progress → Option State,
    ((creditOrCollect p d).toOption.bind fun p' =>
        (p'.applied cfg v).bind fun st => k (p'.withState st)) =
      (p.applied cfg v).bind fun st => (creditAtOnce cfg v (p.withState st) d).toOption.bind k

variable {cfg v b queue} {p : Progress}

theorem extends_applied {st : State} (h : p.applied cfg v = some st) : Extends p.st st :=
  foldlM_invariant (P := Extends p.st) (fun _ _ _ _ hs hstep =>
    hs.trans (extends_applyPendingDeposit hstep)) (.refl _) (toOption_eq_some.mp h)

theorem stopsBefore_withState {st : State} (h : Extends p.st st) (d : PendingDeposit) :
    stopsBefore cfg b (p.withState st) d = stopsBefore cfg b p d := by
  unfold stopsBefore Progress.withState
  rw [h.eth1DepositIndex]

variable {d : PendingDeposit}

theorem credit_known (hnew : p.CollectsNew) {i : Nat}
    (hd : p.st.validatorIndexByPubkey d.publicKey = some i) : p.CreditCommutes cfg v d := by
  intro k
  have havoid : Avoids i p.toBatchVerify p.st :=
    ⟨(validatorIndexByPubkey_eq_some.mp hd).2, fun e he h => by rw [hnew e he] at h; cases h⟩
  calc ((creditOrCollect p d).toOption.bind fun p' =>
        (p'.applied cfg v).bind fun st => k (p'.withState st))
      = ((increaseBalance p.st i d.amount).toOption.bind fun s =>
          (p.toBatchVerify.foldlM (applyPendingDeposit cfg v) s).toOption).bind
            fun st => k (p.withState st) := by
        unfold creditOrCollect
        rw [hd]
        dsimp only
        cases increaseBalance p.st i d.amount <;> rfl
    _ = ((p.applied cfg v).bind fun s => (increaseBalance s i d.amount).toOption).bind
          fun st => k (p.withState st) := by
        rw [increaseBalance_batch_comm havoid, Progress.applied]
    _ = _ := by
        rw [bind_assoc]
        apply Option.bind_congr
        intro st hst
        have hk := (extends_applied hst).known _ i hd
        rw [creditAtOnce, show (p.withState st).st = st from rfl, applyPendingDeposit_of_known hk]
        cases increaseBalance st i d.amount <;> rfl

/-- A new key is collected, or applied at once where the batch would. -/
theorem credit_new (hd : p.st.validatorIndexByPubkey d.publicKey = none) :
    p.CreditCommutes cfg v d := by
  intro k
  unfold creditOrCollect
  rw [hd]
  simp only [toOption_ok, bind_some, Progress.applied, foldlM_append,
    foldlM_cons, foldlM_nil, bind_pure, toOption_bind, bind_assoc]
  apply Option.bind_congr
  intro st _
  rw [creditAtOnce]
  simp only [toOption_map, Progress.withState]
  cases (applyPendingDeposit cfg v st d) <;> rfl

theorem credit_comm (hnew : p.CollectsNew) (d : PendingDeposit) : p.CreditCommutes cfg v d := by
  cases hd : p.st.validatorIndexByPubkey d.publicKey with
  | none => exact credit_new hd
  | some i => exact credit_known hnew hd

theorem collectsNew_creditOrCollect {p p' : Progress} (hnew : p.CollectsNew)
    (h : creditOrCollect p d = .ok p') : p'.CollectsNew := by
  unfold creditOrCollect at h
  cases hd : p.st.validatorIndexByPubkey d.publicKey with
  | none =>
    rw [hd] at h
    cases h
    intro e he
    rcases List.mem_append.mp he with he | he
    · exact hnew e he
    · rw [List.mem_singleton.mp he]
      exact hd
  | some i =>
    rw [hd] at h
    have ho := toOption_eq_some.mpr h
    simp only [toOption_map, toOption_mapError, toOption_increaseBalance,
      map_eq_some_iff, bind_eq_some_iff] at ho
    obtain ⟨_, ⟨_, -, _, -, rfl⟩, rfl⟩ := ho
    exact hnew

/-- The loop with its batch, against the loop that applies each deposit in its turn: the
deposits collected so far may be applied first. -/
theorem outcome_batched (hnew : p.CollectsNew) (ds : List PendingDeposit) :
    outcome cfg b creditOrCollect (fun p => (finish cfg b v queue p).toOption) ds p =
      (p.applied cfg v).bind fun st =>
        outcome cfg b (creditAtOnce cfg v) (settled b queue) ds (p.withState st) := by
  induction ds generalizing p with
  | nil => exact toOption_finish cfg v b queue p
  | cons d ds ih =>
    -- crediting `d` and going on, for the variables with or without the churn consumed
    have credit : ∀ q : Progress, q.st = p.st → q.toBatchVerify = p.toBatchVerify →
        ((creditOrCollect q d).toOption.bind fun q' => outcome cfg b creditOrCollect
            (fun p => (finish cfg b v queue p).toOption) ds q'.moveOn) =
          (q.applied cfg v).bind fun st => (creditAtOnce cfg v (q.withState st) d).toOption.bind
            fun q' => outcome cfg b (creditAtOnce cfg v) (settled b queue) ds q'.moveOn := by
      intro q hst hbatch
      have hq : q.CollectsNew := by
        unfold Progress.CollectsNew
        rw [hst, hbatch]
        exact hnew
      rw [← credit_comm hq d _]
      apply Option.bind_congr
      intro q' hq'
      have hnext : q'.CollectsNew := collectsNew_creditOrCollect hq (toOption_eq_some.mp hq')
      exact ih (p := q'.moveOn) hnext
    have later : ∀ st, p.applied cfg v = some st →
        outcome cfg b (creditAtOnce cfg v) (settled b queue) (d :: ds) (p.withState st) = _ :=
      fun st hst => by
        rw [outcome_cons, stopsBefore_withState (extends_applied hst),
          show (p.withState st).st = st from rfl, (extends_applied hst).validatorStatus_eq]
    rw [outcome_cons, Option.bind_congr later]
    by_cases hstop : stopsBefore cfg b p d = true
    · simp only [if_pos hstop]
      exact toOption_finish cfg v b queue p
    · simp only [if_neg hstop]
      cases validatorStatus b p.st d with
      | error e => cases p.applied cfg v <;> rfl
      | ok status =>
        simp only [toOption_ok, bind_some]
        -- the batch does not touch the amount processed so far
        have hamount : ∀ st, (p.withState st).processedAmount = p.processedAmount := fun _ => rfl
        split_ifs with _ _ hchurn
        · exact credit p rfl rfl
        · exact ih (p := (p.postpone d).moveOn) hnew
        · simp only [hamount, if_pos hchurn]
          exact toOption_finish cfg v b queue { p with isChurnLimitReached := true }
        · simp only [hamount, if_neg hchurn]
          exact credit (p.consume d) rfl rfl

/-- Forgetting the errors, the batched run and the sequential one are the same. -/
theorem toOption_processPendingDeposits (st : State) (activeBalance : Nat) :
    (processPendingDeposits cfg v st activeBalance).toOption =
      (processPendingDepositsOneByOne cfg v st activeBalance).toOption := by
  unfold processPendingDeposits processPendingDepositsOneByOne
  cases bounds cfg st activeBalance with
  | error e => rfl
  | ok b =>
    simp only [toOption_bind, toOption_ok, bind_some]
    exact outcome_batched (p := { st }) (forall_mem_nil _) st.pendingDeposits

end Loop

end LightChain.Electra

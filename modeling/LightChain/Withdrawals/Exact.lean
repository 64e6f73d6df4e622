import LightChain.Withdrawals.Process

/-!
# Withdrawals are exact

An invariant of the list carries both loops: no validator owes more than it has, one that
the sweep withdraws fully owes all of it, and any other keeps the balance that activates a
validator. So `ProcessWithdrawals` never cuts a balance at zero.
-/
namespace LightChain.Withdrawals
open Library Epoch Electra List State Nat

section Invariant

def taken (ws : List Withdrawal) (v : Nat) : Nat :=
  debit Withdrawal.validatorIndex Withdrawal.amount ws v

def State.balance (st : State) (v : Nat) : Nat := st.balances.getD v 0

variable (cfg : WithdrawalConfig)

/-- The list has a withdrawal of all that is left to a validator that may leave entirely. -/
def FullyWithdrawn (st : State) (ws : List Withdrawal) (v : Nat) : Prop :=
  ∃ val earlier w later, st.validators[v]? = some val ∧ ws = earlier ++ w :: later ∧
    w.validatorIndex = v ∧ w.amount = st.balance v - taken earlier v ∧
    isFullyWithdrawableValidator cfg val w.amount (toEpoch cfg.toBeaconChainConfig st.slot)
      st.version = true

/-- What the list leaves to a validator. -/
structure Settled (st : State) (ws : List Withdrawal) (v : Nat) : Prop where
  le : taken ws v ≤ st.balance v
  full : FullyWithdrawn cfg st ws v → taken ws v = st.balance v
  partly : (∃ w ∈ ws, w.validatorIndex = v) → ¬ FullyWithdrawn cfg st ws v →
    taken ws v + cfg.minActivationBalance ≤ st.balance v

structure Listing.Sound (st : State) (l : Listing) : Prop where
  index : ∀ i w, l.withdrawals[i]? = some w → w.index = uint64 (st.nextWithdrawalIndex + i)
  next : l.withdrawalIndex = uint64 (st.nextWithdrawalIndex + l.withdrawals.length)
  known : ∀ w ∈ l.withdrawals, w.validatorIndex < st.validators.length
  settled : ∀ v, Settled cfg st l.withdrawals v

variable {cfg} {st : State} {l : Listing} {ws : List Withdrawal} {v : Nat}

theorem taken_concat (w : Withdrawal) :
    taken (ws ++ [w]) v = taken ws v + if w.validatorIndex = v then w.amount else 0 :=
  debit_concat w

theorem State.balance_lt (st : State) (v : Nat) : st.balance v < 2 ^ 64 := by
  unfold State.balance
  rcases Nat.lt_or_ge v st.balances.length with h | h
  · rw [getD_eq_getElem _ _ h]
    exact st.balances_lt _ (getElem_mem h)
  · rw [getD_eq_default _ _ h]
    exact Nat.two_pow_pos 64

theorem withdrawn_foldl (total : Nat) :
    ws.foldl (fun total w => if w.validatorIndex = v then add64 total w.amount else total)
      (uint64 total) = uint64 (total + taken ws v) := by
  induction ws generalizing total with
  | nil => rfl
  | cons w ws ih =>
    have hcons : taken (w :: ws) v =
        (if w.validatorIndex = v then w.amount else 0) + taken ws v := debit_cons w
    rw [foldl_cons, hcons]
    by_cases hv : w.validatorIndex = v
    · have hadd : add64 (uint64 total) w.amount = uint64 (total + w.amount) := by
        simp [add64, uint64]
      simp only [if_pos hv, hadd, ih, Nat.add_assoc]
    · simp only [if_neg hv, ih, Nat.zero_add]

theorem withdrawn_eq (h : taken ws v ≤ st.balance v) : withdrawn ws v = taken ws v := by
  have hfold := @withdrawn_foldl ws v 0
  rw [Nat.zero_add, uint64_of_lt (h.trans_lt (st.balance_lt v))] at hfold
  exact hfold

theorem fullyWithdrawn_concat {w : Withdrawal} : FullyWithdrawn cfg st (ws ++ [w]) v ↔
    FullyWithdrawn cfg st ws v ∨ ∃ val, st.validators[v]? = some val ∧ w.validatorIndex = v ∧
      w.amount = st.balance v - taken ws v ∧ isFullyWithdrawableValidator cfg val w.amount
        (toEpoch cfg.toBeaconChainConfig st.slot) st.version = true := by
  constructor
  · rintro ⟨val, earlier, w', later, hval, hsplit, hv, hamount, hfull⟩
    rcases eq_nil_or_concat later with rfl | ⟨later, last, rfl⟩
    · obtain ⟨rfl, hw⟩ := append_inj' hsplit rfl
      obtain rfl : w = w' := by simpa using hw
      exact .inr ⟨val, hval, hv, hamount, hfull⟩
    · have hinit : ws ++ [w] = (earlier ++ w' :: later) ++ [last] := by simpa using hsplit
      obtain ⟨rfl, -⟩ := append_inj' hinit rfl
      exact .inl ⟨val, earlier, w', later, hval, rfl, hv, hamount, hfull⟩
  · rintro (⟨val, earlier, w', later, hval, rfl, hv, hamount, hfull⟩ |
      ⟨val, hval, hv, hamount, hfull⟩)
    · exact ⟨val, earlier, w', later ++ [w], hval, by simp, hv, hamount, hfull⟩
    · exact ⟨val, ws, w, [], hval, rfl, hv, hamount, hfull⟩

/-- Another withdrawal keeps the invariant: it takes the rest of the balance from a validator
that may leave, or it leaves the balance that activates one. -/
theorem Listing.Sound.append (h : l.Sound cfg st) {val : Electra.Validator} {j amount : Nat}
    (hval : st.validators[j]? = some val) (hle : taken l.withdrawals j + amount ≤ st.balance j)
    (hkind : (amount = st.balance j - taken l.withdrawals j ∧
        isFullyWithdrawableValidator cfg val amount (toEpoch cfg.toBeaconChainConfig st.slot)
          st.version = true) ∨
      taken l.withdrawals j + amount + cfg.minActivationBalance ≤ st.balance j) :
    (l.append val j amount).Sound cfg st := by
  have hj : j < st.validators.length := (List.getElem?_eq_some_iff.1 hval).1
  constructor
  · intro i w hw
    rcases Nat.lt_trichotomy i l.withdrawals.length with hi | rfl | hi
    · exact h.index i w (by simpa [Listing.append, getElem?_append_left hi] using hw)
    · obtain rfl : _ = w := by simpa [Listing.append] using hw
      exact h.next
    · simp [Listing.append, hi] at hw
  · simp [Listing.append, h.next, add64, uint64, Nat.add_assoc]
  · intro w hw
    obtain hw | rfl : w ∈ l.withdrawals ∨ _ = w := by
      simpa [Listing.append, eq_comm] using hw
    · exact h.known w hw
    · exact hj
  · intro v
    have hv := h.settled v
    simp only [Listing.append]
    by_cases hjv : j = v
    · -- The validator of the new entry.
      subst hjv
      have htaken : taken (l.withdrawals ++ [⟨l.withdrawalIndex, j, withdrawalAddress val, amount⟩])
          j = taken l.withdrawals j + amount := by simp [taken_concat]
      refine ⟨htaken ▸ hle, ?_, ?_⟩
      · rw [fullyWithdrawn_concat, htaken]
        rintro (hfull | ⟨-, -, -, hamount, -⟩)
        · have := hv.full hfull
          omega
        · simp only at hamount
          omega
      · intro _ hnot
        rw [fullyWithdrawn_concat, not_or] at hnot
        rw [htaken]
        rcases hkind with ⟨hamount, hfull⟩ | hkeep
        · exact absurd ⟨val, hval, rfl, hamount, hfull⟩ hnot.2
        · exact hkeep
    · have htaken : taken (l.withdrawals ++ [⟨l.withdrawalIndex, j, withdrawalAddress val, amount⟩])
          v = taken l.withdrawals v := by simp [taken_concat, hjv]
      have hfull : FullyWithdrawn cfg st
          (l.withdrawals ++ [⟨l.withdrawalIndex, j, withdrawalAddress val, amount⟩]) v ↔
            FullyWithdrawn cfg st l.withdrawals v := by
        rw [fullyWithdrawn_concat]
        exact or_iff_left (by rintro ⟨_, _, hv, _⟩; exact hjv hv)
      refine ⟨htaken ▸ hv.le, fun hf => htaken ▸ hv.full (hfull.1 hf), fun hmem hnot => ?_⟩
      rw [htaken]
      refine hv.partly ?_ fun hf => hnot (hfull.2 hf)
      simpa [hjv] using hmem

theorem sound_empty : (⟨[], st.nextWithdrawalIndex⟩ : Listing).Sound cfg st := by
  refine ⟨fun i w hw => by simp at hw, (uint64_of_lt st.nextWithdrawalIndex_lt).symm,
    fun w hw => by simp at hw, fun v => ⟨Nat.zero_le _, ?_, fun ⟨w, hw, _⟩ => by simp at hw⟩⟩
  rintro ⟨val, earlier, w, later, -, hsplit, -⟩
  simp at hsplit

end Invariant

section Loops

variable {cfg : WithdrawalConfig} {st : State} {l : Listing}

theorem State.exists_validator (st : State) {j : Nat} (hj : j < st.validators.length) :
    ∃ val, st.validators[j]? = some val ∧ st.validatorAtIndexReadOnly j = .ok val ∧
      st.balanceAtIndex j = .ok (st.balance j) := by
  have hval := getElem?_eq_getElem hj
  have hbal := getElem?_eq_getElem (st.length_balances ▸ hj : j < st.balances.length)
  refine ⟨st.validators[j], hval, ?_, ?_⟩
  · rw [State.validatorAtIndexReadOnly, hval]
  · rw [State.balanceAtIndex, hbal, State.balance, getD_eq_getElem?_getD, hbal]
    rfl

theorem checkedSub64_of_le {a b : Nat} (h : b ≤ a) : checkedSub64 a b = .ok (a - b) :=
  if_neg (Nat.not_lt.2 h)

/-- The loop over the queue deals with a prefix of due requests. -/
theorem pendingLoop_sound {queue : List PendingPartialWithdrawal}
    (hqueue : ∀ w ∈ queue, w.index < st.validators.length) (h : l.Sound cfg st) (count : Nat) :
    ∃ l' n, st.pendingLoop cfg queue l count = .ok (l', count + n) ∧ l'.Sound cfg st ∧
      n ≤ queue.length ∧ ∀ w ∈ queue.take n,
        w.withdrawableEpoch ≤ toEpoch cfg.toBeaconChainConfig st.slot := by
  induction queue generalizing l count with
  | nil => exact ⟨l, 0, rfl, h, le_rfl, by simp⟩
  | cons w queue ih =>
    have hw := hqueue w mem_cons_self
    have hrest : ∀ w ∈ queue, w.index < st.validators.length :=
      fun w' hw' => hqueue w' (mem_cons_of_mem _ hw')
    unfold pendingLoop
    by_cases hstop : toEpoch cfg.toBeaconChainConfig st.slot < w.withdrawableEpoch ∨
        cfg.maxPendingPartialsPerWithdrawalsSweep ≤ l.withdrawals.length
    · rw [if_pos hstop]
      exact ⟨l, 0, rfl, h, Nat.zero_le _, by simp⟩
    · obtain ⟨val, hval, hread, hbalance⟩ := st.exists_validator hw
      have hle := (h.settled w.index).le
      rw [if_neg hstop, hread, hbalance, withdrawn_eq hle]
      simp only [Except.mapError, ok_bind, checkedSub64_of_le hle]
      -- The rest of the queue starts from a sound list, whether or not the request gives an entry.
      have hnext : ∀ l : Listing, l.Sound cfg st → ∃ l' n,
          st.pendingLoop cfg queue l (count + 1) = .ok (l', count + n) ∧ l'.Sound cfg st ∧
            n ≤ (w :: queue).length ∧ ∀ w' ∈ (w :: queue).take n,
              w'.withdrawableEpoch ≤ toEpoch cfg.toBeaconChainConfig st.slot := by
        intro l hl
        obtain ⟨l', n, hrun, hsound, hn, hdue⟩ := ih hrest hl (count + 1)
        refine ⟨l', n + 1, by rw [hrun, Nat.add_assoc, Nat.add_comm 1], hsound,
          succ_le_succ hn, fun w' hw' => ?_⟩
        rcases mem_cons.1 hw' with rfl | hw'
        · exact Nat.not_lt.1 (not_or.1 hstop).1
        · exact hdue w' hw'
      split_ifs with hpay
      · refine hnext _ (h.append hval ?_ (.inr ?_)) <;> omega
      · exact hnext l h

theorem State.sweepBalance_eq (h : l.Sound cfg st) {j : Nat}
    (hfresh : st.version < .electra → taken l.withdrawals j = 0) :
    st.sweepBalance l.withdrawals j (st.balance j) =
      .ok (st.balance j - taken l.withdrawals j) := by
  have hle := (h.settled j).le
  unfold State.sweepBalance
  split_ifs with hversion
  · rw [withdrawn_eq hle, checkedSub64_of_le hle]
    rfl
  · rw [hfresh (Nat.not_le.1 hversion), Nat.sub_zero]

variable {val : Electra.Validator}

theorem lt_of_isPartiallyWithdrawable {balance : Nat} {fork : Version}
    (h : isPartiallyWithdrawableValidator cfg val balance fork = true) :
    cfg.minActivationBalance ≤
        validatorMaxEffectiveBalance cfg.toBeaconChainConfig val.withdrawalCredentials ∧
      validatorMaxEffectiveBalance cfg.toBeaconChainConfig val.withdrawalCredentials < balance := by
  have hmin : cfg.minActivationBalance ≤
      validatorMaxEffectiveBalance cfg.toBeaconChainConfig val.withdrawalCredentials := by
    unfold validatorMaxEffectiveBalance
    split_ifs
    · exact cfg.minActivation_le_electra
    · exact le_rfl
  refine ⟨hmin, ?_⟩
  unfold isPartiallyWithdrawableValidator at h
  split_ifs at h with hfork
  · -- Before Electra the credentials are of the first kind, so the maximum is the lower one.
    simp only [isPartiallyWithdrawableValidatorCapella, hasETH1WithdrawalCredentials,
      Bool.and_eq_true, beq_iff_eq, decide_eq_true_eq] at h
    have hkind : hasCompoundingWithdrawalCredentials cfg.toBeaconChainConfig
        val.withdrawalCredentials = false := by
      simp [hasCompoundingWithdrawalCredentials, h.1.1, cfg.prefixByte_ne]
    rw [validatorMaxEffectiveBalance, hkind]
    exact cfg.minActivation_le.trans_lt h.1.2
  · simp only [isPartiallyWithdrawableValidatorElectra, Bool.and_eq_true, decide_eq_true_eq] at h
    exact h.2

theorem sweepEntry_sound (h : l.Sound cfg st) {j : Nat} (hval : st.validators[j]? = some val) :
    (st.sweepEntry cfg l val j (st.balance j - taken l.withdrawals j)).Sound cfg st := by
  have hle := (h.settled j).le
  unfold sweepEntry
  split_ifs with hfull hpart
  · exact h.append hval (by omega) (.inl ⟨rfl, hfull⟩)
  · obtain ⟨hmin, hlt⟩ := lt_of_isPartiallyWithdrawable hpart
    have hbound := st.balance_lt j
    rw [sub64_of_le (by omega) hlt.le]
    refine h.append hval ?_ (.inr ?_) <;> omega
  · exact h

theorem taken_sweepEntry {j balance v : Nat} (hv : j ≠ v) :
    taken (st.sweepEntry cfg l val j balance).withdrawals v = taken l.withdrawals v := by
  unfold sweepEntry
  split_ifs <;> simp [Listing.append, taken_concat, hv]

/-- The sweep. Before Electra it relies on not coming to a validator twice, so the validators
that are still ahead have no entry. -/
theorem sweepLoop_sound {n j : Nat} (hj : j < st.validators.length)
    (hn : n ≤ st.validators.length) (h : l.Sound cfg st)
    (hfresh : st.version < .electra →
      ∀ t < n, taken l.withdrawals ((j + t) % st.validators.length) = 0) :
    ∃ l', st.sweepLoop cfg n j l = .ok l' ∧ l'.Sound cfg st := by
  induction n generalizing j l with
  | zero => exact ⟨l, rfl, h⟩
  | succ n ih =>
    obtain ⟨val, hval, hread, hbalance⟩ := st.exists_validator hj
    have hhere : st.version < .electra → taken l.withdrawals j = 0 := by
      intro hversion
      simpa [mod_eq_of_lt hj] using hfresh hversion 0 (succ_pos n)
    have hentry := sweepEntry_sound h hval
    have hahead : st.version < .electra → ∀ t < n,
        taken (st.sweepEntry cfg l val j (st.balance j - taken l.withdrawals j)).withdrawals
          ((j + (t + 1)) % st.validators.length) = 0 := by
      intro hversion t ht
      rw [taken_sweepEntry, hfresh hversion (t + 1) (by omega)]
      -- Fewer steps than there are validators do not come back to `j`.
      intro hback
      have hmod : (j + (t + 1)) % st.validators.length = j % st.validators.length := by
        rw [← hback, mod_eq_of_lt hj]
      have hdvd := (modEq_iff_dvd' (Nat.le_add_right j (t + 1))).1 (show j ≡ j + (t + 1)
        [MOD st.validators.length] from hmod.symm)
      have := le_of_dvd (by omega) hdvd
      omega
    unfold sweepLoop
    rw [hread, hbalance]
    simp only [Except.mapError, ok_bind, st.sweepBalance_eq h hhere]
    split_ifs with hfull hend
    · exact ⟨_, rfl, hentry⟩
    · refine ih (by omega) (by omega) hentry fun hversion t ht => ?_
      have := hahead hversion t ht
      rwa [show j + (t + 1) = st.validators.length + t by omega, add_mod_left,
        ← Nat.zero_add t] at this
    · refine ih (by omega) (by omega) hentry fun hversion t ht => ?_
      have := hahead hversion t ht
      rwa [show j + (t + 1) = j + 1 + t by omega] at this

/-- The validators that the queue and the cursor name are there. -/
structure State.NamesExisting (st : State) : Prop where
  pending : ∀ w ∈ st.pendingPartialWithdrawals, w.index < st.validators.length
  cursor : st.nextWithdrawalValidatorIndex < st.validators.length

theorem expectedWithdrawals_sound (hversion : .capella ≤ st.version) (h : st.NamesExisting) :
    ∃ (l : Listing) (count : Nat), st.expectedWithdrawals cfg = .ok (l.withdrawals, count) ∧ l.Sound cfg st ∧
      count ≤ st.pendingPartialWithdrawals.length ∧
      ∀ w ∈ st.pendingPartialWithdrawals.take count,
        w.withdrawableEpoch ≤ toEpoch cfg.toBeaconChainConfig st.slot := by
  obtain ⟨queued, count, hqueue, hqueued, hcount, hdue, hempty⟩ : ∃ queued count,
      st.appendPendingPartialWithdrawals cfg ⟨[], st.nextWithdrawalIndex⟩ = .ok (queued, count) ∧
        queued.Sound cfg st ∧ count ≤ st.pendingPartialWithdrawals.length ∧
        (∀ w ∈ st.pendingPartialWithdrawals.take count,
          w.withdrawableEpoch ≤ toEpoch cfg.toBeaconChainConfig st.slot) ∧
        (st.version < .electra → queued.withdrawals = []) := by
    unfold appendPendingPartialWithdrawals
    split_ifs with helectra
    · exact ⟨_, 0, rfl, sound_empty, Nat.zero_le _, by simp, fun _ => rfl⟩
    · obtain ⟨l, n, hrun, hl, hn, hdue⟩ := pendingLoop_sound h.pending sound_empty 0
      rw [Nat.zero_add] at hrun
      exact ⟨l, n, hrun, hl, hn, hdue, fun hlt => absurd hlt helectra⟩
  obtain ⟨l, hsweep, hl⟩ := sweepLoop_sound h.cursor (Nat.min_le_left _
    cfg.maxValidatorsPerWithdrawalsSweep) hqueued fun helectra t _ => by
      rw [hempty helectra]
      rfl
  refine ⟨l, count, ?_, hl, hcount, hdue⟩
  unfold expectedWithdrawals appendValidatorsSweepWithdrawals
  have hsupported : ¬ st.version < .capella := Nat.not_lt.2 hversion
  rw [if_neg hsupported, hqueue]
  simp only [ok_bind, hsweep]

end Loops

section Process

variable {cfg : WithdrawalConfig} {Root : Type} [DecidableEq Root]
  {withdrawalSliceRoot : List Withdrawal → Except WithdrawalError Root} {st st' : State}

theorem decreaseBalance_eq_ok {idx delta : Nat} (h : st.decreaseBalance idx delta = .ok st') :
    st'.balances = st.balances.modify idx (· - delta) ∧ st'.version = st.version ∧
      st'.pendingPartialWithdrawals = st.pendingPartialWithdrawals ∧
      st'.validators = st.validators ∧
      st'.nextWithdrawalValidatorIndex = st.nextWithdrawalValidatorIndex := by
  unfold decreaseBalance at h
  split at h
  · cases h
  · next bal hbal =>
    cases h
    refine ⟨ext_getElem? fun i => ?_, rfl, rfl, rfl, rfl⟩
    rw [getElem?_set, getElem?_modify, decreaseBalanceWithVal_eq]
    by_cases hi : idx = i
    · subst hi
      obtain ⟨hlt, rfl⟩ := List.getElem?_eq_some_iff.1 hbal
      simp [hlt]
    · simp [hi]

variable {ws : List Withdrawal}

theorem decreaseAll_eq_ok
    (h : ws.foldlM (fun st w =>
      (decreaseBalance st w.validatorIndex w.amount).mapError
        WithdrawalError.decreaseBalance) st =
        .ok st') :
    st'.balances = settle Withdrawal.validatorIndex Withdrawal.amount st.balances ws ∧
      st'.version = st.version ∧
      st'.pendingPartialWithdrawals = st.pendingPartialWithdrawals ∧
      st'.validators = st.validators ∧
      st'.nextWithdrawalValidatorIndex = st.nextWithdrawalValidatorIndex := by
  induction ws generalizing st with
  | nil =>
    cases h
    exact ⟨rfl, rfl, rfl, rfl, rfl⟩
  | cons w ws ih =>
    rw [foldlM_cons, bind_eq_ok] at h
    obtain ⟨next, hnext, hrest⟩ := h
    obtain ⟨hbalances, hversion, hpending, hvals, hcursor⟩ :=
      decreaseBalance_eq_ok (ok_of_mapError hnext)
    obtain ⟨hb, hv, hp, hvs, hc⟩ := ih hrest
    exact ⟨by rw [hb, hbalances, settle_cons], hv.trans hversion, hp.trans hpending,
      hvs.trans hvals, hc.trans hcursor⟩

/-- What a successful call does. -/
theorem processWithdrawals_eq_ok {executionData : ExecutionData Root} {count : Nat}
    (hexpected : st.expectedWithdrawals cfg = .ok (ws, count))
    (h : processWithdrawals cfg withdrawalSliceRoot st executionData = .ok st') :
    st'.balances = settle Withdrawal.validatorIndex Withdrawal.amount st.balances ws ∧
      (st'.pendingPartialWithdrawals = if .electra ≤ st.version then
        st.pendingPartialWithdrawals.drop count else st.pendingPartialWithdrawals) ∧
      st.nextCursor cfg ws = .ok st'.nextWithdrawalValidatorIndex := by
  unfold processWithdrawals at h
  rw [hexpected] at h
  simp only [Except.mapError, ok_bind] at h
  obtain ⟨wdRoot, -, h⟩ := bind_eq_ok.1 h
  obtain ⟨expectedRoot, -, h⟩ := bind_eq_ok.1 h
  split_ifs at h with hroot
  obtain ⟨paid, hpaid, h⟩ := bind_eq_ok.1 h
  obtain ⟨hbalances, hversion, hpending, hvals, hcursor⟩ := decreaseAll_eq_ok hpaid
  obtain ⟨dequeued, hdequeued, h⟩ := bind_eq_ok.1 h
  obtain ⟨cursor, hnext, h⟩ := bind_eq_ok.1 h
  have hfinal : st'.balances = dequeued.balances ∧
      st'.pendingPartialWithdrawals = dequeued.pendingPartialWithdrawals ∧
      dequeued.nextCursor cfg ws = .ok st'.nextWithdrawalValidatorIndex := by
    cases h
    cases hlast : ws.getLast? <;> rw [hlast] at hnext <;> exact ⟨rfl, rfl, hnext⟩
  have hnextCursor : paid.nextCursor cfg ws = st.nextCursor cfg ws := by
    unfold nextCursor
    rw [hvals, hcursor]
  rw [hfinal.1, hfinal.2.1, ← hfinal.2.2, ← hbalances, ← hpending, ← hversion, ← hnextCursor]
  unfold dequeueProcessed at hdequeued
  split_ifs at hdequeued ⊢ with helectra
  · have hdequeue := ok_of_mapError hdequeued
    unfold dequeuePendingPartialWithdrawals at hdequeue
    split_ifs at hdequeue
    cases hdequeue
    exact ⟨rfl, rfl, rfl⟩
  · cases hdequeued
    exact ⟨rfl, rfl, rfl⟩

/-- Withdrawals are exact. -/
theorem withdrawals_exact (cfg : WithdrawalConfig)
    (withdrawalSliceRoot : List Withdrawal → Except WithdrawalError Root) (st : State)
    (hversion : .capella ≤ st.version) (h : st.NamesExisting) :
    ∃ ws count, st.expectedWithdrawals cfg = .ok (ws, count) ∧
      (∀ i w, ws[i]? = some w → w.index = uint64 (st.nextWithdrawalIndex + i)) ∧
      (∀ v, taken ws v ≤ st.balance v) ∧
      ∀ executionData st', processWithdrawals cfg withdrawalSliceRoot st executionData = .ok st' →
        st'.balances.sum + (ws.map Withdrawal.amount).sum = st.balances.sum ∧
        (∀ v, st'.balance v + taken ws v = st.balance v) ∧
        (∀ v, FullyWithdrawn cfg st ws v → st'.balance v = 0) ∧
        (∀ v, (∃ w ∈ ws, w.validatorIndex = v) → ¬ FullyWithdrawn cfg st ws v →
          cfg.minActivationBalance ≤ st'.balance v) ∧
        count ≤ st.pendingPartialWithdrawals.length ∧
        (∀ w ∈ st.pendingPartialWithdrawals.take count,
          w.withdrawableEpoch ≤ toEpoch cfg.toBeaconChainConfig st.slot) ∧
        st'.pendingPartialWithdrawals =
          if .electra ≤ st.version then st.pendingPartialWithdrawals.drop count
          else st.pendingPartialWithdrawals := by
  obtain ⟨l, count, hexpected, hl, hcount, hdue⟩ := expectedWithdrawals_sound hversion h
  refine ⟨l.withdrawals, count, hexpected, hl.index, fun v => (hl.settled v).le,
    fun executionData st' hrun => ?_⟩
  obtain ⟨hbalances, hpending, -⟩ := processWithdrawals_eq_ok hexpected hrun
  have hbalance : ∀ v, st'.balance v + taken l.withdrawals v = st.balance v := by
    intro v
    have hle := (hl.settled v).le
    unfold balance at *
    rw [getD_eq_getElem?_getD] at hle ⊢
    rw [getD_eq_getElem?_getD, hbalances, getElem?_settle, ← taken]
    cases hv : st.balances[v]? with
    | none =>
      rw [hv] at hle
      simpa using hle
    | some b =>
      rw [hv] at hle
      exact Nat.sub_add_cancel hle
  refine ⟨?_, hbalance, fun v hfull => ?_, fun v hmem hnot => ?_, hcount, hdue, hpending⟩
  · rw [hbalances]
    exact sum_settle (fun v => (hl.settled v).le) fun w hw => st.length_balances ▸ hl.known w hw
  · have := hbalance v
    have := (hl.settled v).full hfull
    omega
  · have := hbalance v
    have := (hl.settled v).partly hmem hnot
    omega

/-- An Electra state in which one validator leaves and another has a request and an excess. -/
def twoValidators : State where
  version := .electra
  slot := 320
  validators :=
    [{ publicKey := 1, withdrawalCredentials := BitVec.ofNat 256 (2 ^ 248), withdrawableEpoch := 5 },
      { publicKey := 2, withdrawalCredentials := BitVec.ofNat 256 (2 ^ 248) }]
  balances := [31000000000, 33000000000]
  pendingPartialWithdrawals := [⟨1, 400000000, 7⟩, ⟨1, 100, 20⟩]
  nextWithdrawalIndex := 12
  nextWithdrawalValidatorIndex := 1
  length_balances := rfl
  balances_lt := by decide
  nextWithdrawalIndex_lt := by decide

theorem withdrawals_exact_twoValidators :
    twoValidators.expectedWithdrawals {} = .ok ([⟨12, 1, 0, 400000000⟩, ⟨13, 1, 0, 600000000⟩,
      ⟨14, 0, 0, 31000000000⟩], 1) ∧
    ∃ ws count, twoValidators.expectedWithdrawals {} = .ok (ws, count) ∧
      ∀ v, taken ws v ≤ twoValidators.balance v := by
  have hnames : twoValidators.NamesExisting := ⟨by decide, by decide⟩
  obtain ⟨ws, count, hrun, -, hle, -⟩ := withdrawals_exact {}
    (fun _ => .ok 0 : List Withdrawal → Except WithdrawalError Nat) twoValidators (by decide) hnames
  exact ⟨by decide +kernel, ws, count, hrun, hle⟩

end Process

end LightChain.Withdrawals

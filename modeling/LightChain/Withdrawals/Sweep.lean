import LightChain.Withdrawals.Exact

/-!
# The sweep of the withdrawals skips nobody

The loop of `appendValidatorsSweepWithdrawals` is repeated here with a record of the
validators that it reads. The record goes round the registry from the cursor. It ends at the
validator of the last withdrawal where the payload fills up, and has the length of the bound
where it does not, so the new cursor is never beyond it.
-/
namespace LightChain.Withdrawals
open Library Epoch Electra State Nat

/-- The sizes of a payload. Pending partial withdrawals alone never fill one. -/
structure SweepConfig extends WithdrawalConfig where
  sweep_pos : 0 < maxValidatorsPerWithdrawalsSweep := by decide
  pending_lt : maxPendingPartialsPerWithdrawalsSweep < maxWithdrawalsPerPayload := by decide

section Record

variable (cfg : WithdrawalConfig)

/-- The loop of the sweep with the indices of the validators that it examines. -/
def State.sweepRecord (st : State) :
    Nat → Nat → Listing → Except WithdrawalError (List Nat × Listing)
  | 0, _, l => .ok ([], l)
  | n + 1, validatorIndex, l => do
    let val ← (st.validatorAtIndexReadOnly validatorIndex).mapError (.sweepValidator validatorIndex)
    let balance ← (st.balanceAtIndex validatorIndex).mapError (.sweepBalance validatorIndex)
    let balance ← st.sweepBalance l.withdrawals validatorIndex balance
    let l := st.sweepEntry cfg l val validatorIndex balance
    if l.withdrawals.length = cfg.maxWithdrawalsPerPayload then .ok ([validatorIndex], l)
    else do
      let next := if validatorIndex + 1 = st.validators.length then 0 else validatorIndex + 1
      let (examined, l) ← st.sweepRecord n next l
      .ok (validatorIndex :: examined, l)

def State.examined (st : State) : List Nat :=
  match st.appendPendingPartialWithdrawals cfg ⟨[], st.nextWithdrawalIndex⟩ with
  | .error _ => []
  | .ok (l, _) =>
    match st.sweepRecord cfg (min st.validators.length cfg.maxValidatorsPerWithdrawalsSweep)
      st.nextWithdrawalValidatorIndex l with
    | .error _ => []
    | .ok (examined, _) => examined

/-- The cursor moves over examined validators, or the whole registry was examined. -/
def Covers (st st' : State) : Prop :=
  (∃ d, st'.nextWithdrawalValidatorIndex =
      (st.nextWithdrawalValidatorIndex + d) % st.validators.length ∧
    ∀ t < d, (st.nextWithdrawalValidatorIndex + t) % st.validators.length ∈ st.examined cfg) ∨
  (st.validators.length ≤ cfg.maxValidatorsPerWithdrawalsSweep ∧
    ∀ i < st.validators.length, i ∈ st.examined cfg)

variable {cfg} {st st' : State} {l l' : Listing} {n j : Nat}

theorem map_sweepRecord : (st.sweepRecord cfg n j l).map Prod.snd = st.sweepLoop cfg n j l := by
  induction n generalizing j l with
  | zero => rfl
  | succ n ih =>
    unfold sweepRecord sweepLoop
    cases st.validatorAtIndexReadOnly j with
    | error e => rfl
    | ok val =>
      cases st.balanceAtIndex j with
      | error e => rfl
      | ok balance =>
        simp only [Except.mapError, ok_bind]
        cases st.sweepBalance l.withdrawals j balance with
        | error e => rfl
        | ok left =>
          simp only [ok_bind]
          split_ifs with hfull hwrap
          · rfl
          · rw [← ih]
            cases st.sweepRecord cfg n 0 (st.sweepEntry cfg l val j left) <;> rfl
          · rw [← ih]
            cases st.sweepRecord cfg n (j + 1) (st.sweepEntry cfg l val j left) <;> rfl

/-- How far the loop went: to the bound, or to the validator whose withdrawal fills the
payload. -/
def Ended (cfg : WithdrawalConfig) (st : State) (n j : Nat) (examined : List Nat) (l : Listing) :
    Prop :=
  (examined.length = n ∧ l.withdrawals.length < cfg.maxWithdrawalsPerPayload) ∨
  (l.withdrawals.length = cfg.maxWithdrawalsPerPayload ∧
    ∃ w, l.withdrawals.getLast? = some w ∧ w.validatorIndex < st.validators.length ∧
      (w.validatorIndex + 1) % st.validators.length =
        (j + examined.length) % st.validators.length)

theorem next_mod (t : Nat) :
    ((if j + 1 = st.validators.length then 0 else j + 1) + t) % st.validators.length =
      (j + (t + 1)) % st.validators.length := by
  split_ifs with hwrap
  · rw [show j + (t + 1) = t + st.validators.length by omega, add_mod_right, Nat.zero_add]
  · rw [Nat.add_right_comm, Nat.add_assoc]

theorem lt_of_validatorAtIndexReadOnly {val : Electra.Validator} {f : WithdrawalError → WithdrawalError}
    (h : (st.validatorAtIndexReadOnly j).mapError f = .ok val) : j < st.validators.length := by
  have hval := ok_of_mapError h
  unfold validatorAtIndexReadOnly at hval
  split at hval
  · next hsome => exact (List.getElem?_eq_some_iff.1 hsome).1
  · cases hval

theorem lt_of_sweepLoop (h : st.sweepLoop cfg n j l = .ok l') (hn : 0 < n) :
    j < st.validators.length := by
  obtain ⟨n, rfl⟩ := Nat.exists_eq_add_of_lt hn
  unfold sweepLoop at h
  obtain ⟨val, hval, h⟩ := bind_eq_ok.1 h
  exact lt_of_validatorAtIndexReadOnly hval

/-- The record goes round the registry from the cursor. -/
theorem sweepRecord_eq_ok {examined : List Nat}
    (hl : l.withdrawals.length < cfg.maxWithdrawalsPerPayload)
    (h : st.sweepRecord cfg n j l = .ok (examined, l')) :
    (∀ t < examined.length, (j + t) % st.validators.length ∈ examined) ∧
      Ended cfg st n j examined l' := by
  induction n generalizing j l examined with
  | zero =>
    cases h
    exact ⟨by simp, .inl ⟨rfl, hl⟩⟩
  | succ n ih =>
    unfold sweepRecord at h
    obtain ⟨val, hval, h⟩ := bind_eq_ok.1 h
    obtain ⟨balance, -, h⟩ := bind_eq_ok.1 h
    obtain ⟨left, -, h⟩ := bind_eq_ok.1 h
    have hj : j < st.validators.length := lt_of_validatorAtIndexReadOnly hval
    have hentry : st.sweepEntry cfg l val j left = l ∨
        ∃ amount, st.sweepEntry cfg l val j left = l.append val j amount := by
      unfold sweepEntry
      split_ifs
      · exact .inr ⟨_, rfl⟩
      · exact .inr ⟨_, rfl⟩
      · exact .inl rfl
    by_cases hfull : (st.sweepEntry cfg l val j left).withdrawals.length =
        cfg.maxWithdrawalsPerPayload
    · -- the payload fills up here, so this entry is the last withdrawal
      dsimp only at h
      rw [if_pos hfull] at h
      cases h
      refine ⟨by simp [mod_eq_of_lt hj], .inr ⟨hfull, ?_⟩⟩
      obtain hsame | ⟨amount, happend⟩ := hentry
      · rw [hsame] at hfull
        omega
      · rw [happend]
        exact ⟨_, List.getLast?_concat, hj, rfl⟩
    · dsimp only at h
      rw [if_neg hfull] at h
      obtain ⟨⟨rest, last⟩, hrest, h⟩ := bind_eq_ok.1 h
      cases h
      have hlt : (st.sweepEntry cfg l val j left).withdrawals.length <
          cfg.maxWithdrawalsPerPayload := by
        obtain hsame | ⟨amount, happend⟩ := hentry
        · rwa [hsame]
        · rw [happend] at hfull ⊢
          simp only [Listing.append, List.length_append, List.length_singleton] at hfull ⊢
          omega
      obtain ⟨hmem, hend⟩ := ih hlt hrest
      constructor
      · intro t ht
        cases t with
        | zero => simp [mod_eq_of_lt hj]
        | succ t =>
          rw [← next_mod]
          exact List.mem_cons_of_mem _ (hmem t (by simpa using ht))
      · obtain ⟨hlen, hshort⟩ | ⟨hlen, w, hw, hwlt, hwnext⟩ := hend
        · exact .inl ⟨by simp [hlen], hshort⟩
        · exact .inr ⟨hlen, w, hw, hwlt, hwnext.trans (next_mod _)⟩

end Record

section Cursor

variable {cfg : SweepConfig} {Root : Type} [DecidableEq Root] {st st' : State}
  {withdrawalSliceRoot : List Withdrawal → Except WithdrawalError Root}

theorem pendingLoop_length_le {queue : List PendingPartialWithdrawal} {l l' : Listing}
    {count count' : Nat}
    (hl : l.withdrawals.length ≤ cfg.maxPendingPartialsPerWithdrawalsSweep)
    (h : st.pendingLoop cfg.toWithdrawalConfig queue l count = .ok (l', count')) :
    l'.withdrawals.length ≤ cfg.maxPendingPartialsPerWithdrawalsSweep := by
  induction queue generalizing l count with
  | nil =>
    cases h
    exact hl
  | cons w queue ih =>
    unfold pendingLoop at h
    split_ifs at h with hstop
    · cases h
      exact hl
    · obtain ⟨v, -, h⟩ := bind_eq_ok.1 h
      obtain ⟨vBal, -, h⟩ := bind_eq_ok.1 h
      obtain ⟨balance, -, h⟩ := bind_eq_ok.1 h
      split_ifs at h
      · refine ih ?_ h
        simp only [Listing.append, List.length_append, List.length_singleton]
        omega
      · exact ih hl h

theorem expectedWithdrawals_eq_ok {ws : List Withdrawal} {count : Nat}
    (h : st.expectedWithdrawals cfg.toWithdrawalConfig = .ok (ws, count)) :
    (0 < st.validators.length → st.nextWithdrawalValidatorIndex < st.validators.length) ∧
      (∀ t < (st.examined cfg.toWithdrawalConfig).length,
        (st.nextWithdrawalValidatorIndex + t) % st.validators.length ∈
          st.examined cfg.toWithdrawalConfig) ∧
      ∃ l : Listing, l.withdrawals = ws ∧
        Ended cfg.toWithdrawalConfig st
          (min st.validators.length cfg.maxValidatorsPerWithdrawalsSweep)
          st.nextWithdrawalValidatorIndex (st.examined cfg.toWithdrawalConfig) l := by
  unfold expectedWithdrawals at h
  split_ifs at h
  obtain ⟨⟨pending, processed⟩, hpending, h⟩ := bind_eq_ok.1 h
  obtain ⟨swept, hswept, h⟩ := bind_eq_ok.1 h
  cases h
  have hshort : pending.withdrawals.length < cfg.maxWithdrawalsPerPayload := by
    refine lt_of_le_of_lt ?_ cfg.pending_lt
    unfold appendPendingPartialWithdrawals at hpending
    split_ifs at hpending
    · cases hpending
      exact Nat.zero_le _
    · exact pendingLoop_length_le (Nat.zero_le _) hpending
  unfold appendValidatorsSweepWithdrawals at hswept
  have hcursor : 0 < st.validators.length →
      st.nextWithdrawalValidatorIndex < st.validators.length :=
    fun hpos => lt_of_sweepLoop hswept (lt_min hpos cfg.sweep_pos)
  rw [← map_sweepRecord] at hswept
  cases hrecord : st.sweepRecord cfg.toWithdrawalConfig
      (min st.validators.length cfg.maxValidatorsPerWithdrawalsSweep)
      st.nextWithdrawalValidatorIndex pending with
  | error e =>
    rw [hrecord] at hswept
    cases hswept
  | ok record =>
    rw [hrecord] at hswept
    cases hswept
    have hexamined : st.examined cfg.toWithdrawalConfig = record.1 := by
      unfold examined
      rw [hpending]
      dsimp only
      rw [hrecord]
    rw [hexamined]
    obtain ⟨hmem, hend⟩ := sweepRecord_eq_ok hshort hrecord
    exact ⟨hcursor, hmem, record.2, rfl, hend⟩

theorem covers_of_processWithdrawals {executionData : ExecutionData Root}
    (hpos : 0 < st.validators.length) (hlen : st.validators.length < 2 ^ 63)
    (h : processWithdrawals cfg.toWithdrawalConfig withdrawalSliceRoot st executionData = .ok st') :
    Covers cfg.toWithdrawalConfig st st' := by
  obtain ⟨⟨ws, count⟩, hexpected, -⟩ := bind_eq_ok.1 h
  have hexpected := ok_of_mapError hexpected
  obtain ⟨-, -, hnext⟩ := processWithdrawals_eq_ok hexpected h
  obtain ⟨hcursor, hmem, l, rfl, hend⟩ := expectedWithdrawals_eq_ok hexpected
  have hcursor := hcursor hpos
  obtain ⟨hcount, hshort⟩ | ⟨hfull, w, hw, hwlt, hwnext⟩ := hend
  · by_cases hsmall : st.validators.length ≤ cfg.maxValidatorsPerWithdrawalsSweep
    · -- every offset below the size of the registry was read
      refine .inr ⟨hsmall, fun i hi => ?_⟩
      rw [min_eq_left hsmall] at hcount
      have hread := hmem ((i + st.validators.length - st.nextWithdrawalValidatorIndex) %
        st.validators.length) (by rw [hcount]; exact mod_lt _ hpos)
      rwa [add_mod_mod, Nat.add_sub_cancel' (by omega), add_mod_right,
        mod_eq_of_lt hi] at hread
    · refine .inl ⟨cfg.maxValidatorsPerWithdrawalsSweep, ?_, fun t ht => hmem t (by omega)⟩
      unfold nextCursor at hnext
      rw [if_pos hshort, Except.ok.injEq] at hnext
      rw [← hnext, add64, uint64_of_lt (by omega)]
  · refine .inl ⟨(st.examined cfg.toWithdrawalConfig).length, ?_, hmem⟩
    unfold nextCursor at hnext
    rw [if_neg hfull.not_lt, hw] at hnext
    dsimp only at hnext
    rw [← hwnext]
    split_ifs at hnext with hwrap
    · rw [hwrap, mod_self, Except.ok.inj hnext]
    · rw [mod_eq_of_lt (by omega), Except.ok.inj hnext]

/-- No call of a sequence moves the cursor past a validator that its sweep did not examine. -/
theorem sweep_skips_nobody (cfg : SweepConfig)
    (withdrawalSliceRoot : List Withdrawal → Except WithdrawalError Root) (states : List State)
    (hstates : ∀ st ∈ states, .capella ≤ st.version ∧ 1 ≤ st.validators.length ∧
      st.validators.length < 2 ^ 63)
    (hcalls : states.IsChain fun st st' => ∃ executionData,
      processWithdrawals cfg.toWithdrawalConfig withdrawalSliceRoot st executionData = .ok st') :
    states.IsChain (Covers cfg.toWithdrawalConfig) := by
  refine hcalls.imp_of_mem_imp fun st st' hst _ ⟨executionData, h⟩ => ?_
  obtain ⟨-, hpos, hlen⟩ := hstates st hst
  exact covers_of_processWithdrawals hpos hlen h

/-- A payload of two withdrawals and a sweep of one validator. -/
def smallSweep : SweepConfig :=
  { maxWithdrawalsPerPayload := 2
    maxPendingPartialsPerWithdrawalsSweep := 1
    maxValidatorsPerWithdrawalsSweep := 1
    sweep_pos := Nat.one_pos
    pending_lt := Nat.one_lt_two }

/-- The state `twoValidators` after a payload that the second validator fills. -/
def twoValidatorsPaid : State where
  version := .electra
  slot := 320
  validators := twoValidators.validators
  balances := [31000000000, 32000000000]
  pendingPartialWithdrawals := [⟨1, 100, 20⟩]
  nextWithdrawalIndex := 14
  nextWithdrawalValidatorIndex := 0
  length_balances := rfl
  balances_lt := by decide
  nextWithdrawalIndex_lt := by decide

theorem sweep_skips_nobody_twoValidators :
    twoValidators.examined smallSweep.toWithdrawalConfig = [1] ∧
      [twoValidators, twoValidatorsPaid].IsChain (Covers smallSweep.toWithdrawalConfig) := by
  refine ⟨by decide +kernel, sweep_skips_nobody smallSweep (fun ws => .ok ws.length) _ ?_ ?_⟩
  · intro st hst
    obtain rfl | rfl : st = twoValidators ∨ st = twoValidatorsPaid := by simpa using hst
    · decide
    · decide
  · exact .cons_cons ⟨.blinded (.ok 2), by rfl⟩ (.singleton _)

end Cursor

end LightChain.Withdrawals

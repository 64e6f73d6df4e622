import LightChain.Library.Ledger
import LightChain.Library.Program
import LightChain.Withdrawals.Process

/-!
# Pending consolidations

`ProcessPendingConsolidations` moves the active balance of each source to its target, in the
order of the queue, up to the first source that is neither slashed nor withdrawable. Balances
are changed one by one, so a sum that leaves `uint64` ends the call in the middle of a move.
-/
namespace LightChain.Consolidations
open Library Library.Program Epoch List

structure PendingConsolidation where
  sourceIndex : Nat
  targetIndex : Nat
deriving DecidableEq, Repr

structure State where
  version : Version
  slot : Nat
  validators : List Validator
  balances : List Nat
  pendingConsolidations : List PendingConsolidation
deriving DecidableEq, Repr

def balanceAtIndex (idx : Nat) : EStateM Error State Nat := do
  match (← get).balances[idx]? with
  | some b => return b
  | none => throw (.indexOutOfRange idx)

def updateBalancesAtIndex (idx val : Nat) : EStateM Error State PUnit :=
  modify fun st => { st with balances := st.balances.set idx val }

def decreaseBalance (idx delta : Nat) : EStateM Error State PUnit := do
  let balAtIdx ← balanceAtIndex idx
  updateBalancesAtIndex idx (Withdrawals.decreaseBalanceWithVal balAtIdx delta)

def increaseBalance (idx delta : Nat) : EStateM Error State PUnit := do
  let balAtIdx ← balanceAtIndex idx
  match safeAdd64 balAtIdx delta with
  | some newBal => updateBalancesAtIndex idx newBal
  | none => throw .addOverflow

/-- The loop, with the number of entries to remove. -/
def consolidationLoop (nextEpoch : Nat) :
    List PendingConsolidation → Nat → EStateM Error State Nat
  | [], nextPendingConsolidation => return nextPendingConsolidation
  | pc :: rest, nextPendingConsolidation => do
    match (← get).validators[pc.sourceIndex]? with
    | none => throw (.indexOutOfRange pc.sourceIndex)
    | some sourceValidator =>
      if sourceValidator.slashed then
        consolidationLoop nextEpoch rest (nextPendingConsolidation + 1)
      else if nextEpoch < sourceValidator.withdrawableEpoch then
        return nextPendingConsolidation
      else do
        let validatorBalance ← balanceAtIndex pc.sourceIndex
        let b := min validatorBalance sourceValidator.effectiveBalance
        decreaseBalance pc.sourceIndex b
        increaseBalance pc.targetIndex b
        consolidationLoop nextEpoch rest (nextPendingConsolidation + 1)

def processPendingConsolidations (cfg : BeaconChainConfig) : EStateM Error State PUnit := do
  let st ← get
  if st.version < .electra then throw (.notSupported "PendingConsolidations" st.version)
  else do
    let n ← consolidationLoop (add64 (toEpoch cfg st.slot) 1) st.pendingConsolidations 0
    if 0 < n then
      modify fun st => { st with pendingConsolidations := st.pendingConsolidations.drop n }
    else return ⟨⟩

section Specification

variable (validators : List Validator)

/-- The entry does not hold up the queue. -/
def due (nextEpoch : Nat) (pc : PendingConsolidation) : Bool :=
  match validators[pc.sourceIndex]? with
  | some v => v.slashed || v.withdrawableEpoch ≤ nextEpoch
  | none => false

/-- What an entry that is reached does to the balances of that moment. -/
def transfer (balances : List Nat) (pc : PendingConsolidation) : List Nat :=
  match validators[pc.sourceIndex]? with
  | some v =>
    if v.slashed then balances
    else
      let b := min (balances.getD pc.sourceIndex 0) v.effectiveBalance
      (balances.modify pc.sourceIndex (· - b)).modify pc.targetIndex (· + b)
  | none => balances

end Specification

/-- The queue names existing validators, and each of these has a balance. -/
structure NamesExisting (st : State) (queue : List PendingConsolidation) : Prop where
  length_balances : st.balances.length = st.validators.length
  source : ∀ pc ∈ queue, pc.sourceIndex < st.validators.length
  target : ∀ pc ∈ queue, pc.targetIndex < st.validators.length

variable {st : State} {validators : List Validator} {balances : List Nat}
  {pc : PendingConsolidation}

theorem sum_transfer (hsource : pc.sourceIndex < balances.length)
    (htarget : pc.targetIndex < balances.length) :
    (transfer validators balances pc).sum = balances.sum := by
  unfold transfer
  split
  · split_ifs
    · rfl
    · rw [sum_modify_add (by simpa using htarget)]
      refine sum_modify_sub hsource ?_
      rw [getD_eq_getElem _ _ hsource]
      exact min_le_left _ _
  · rfl

theorem length_transfer : (transfer validators balances pc).length = balances.length := by
  unfold transfer
  split
  · split_ifs <;> simp
  · rfl

theorem getElem?_transfer {i : Nat} (hsource : pc.sourceIndex ≠ i) (htarget : pc.targetIndex ≠ i) :
    (transfer validators balances pc)[i]? = balances[i]? := by
  unfold transfer
  split
  · split_ifs
    · rfl
    · simp [htarget, hsource]
  · rfl

variable {queue : List PendingConsolidation}

theorem sum_foldl_transfer (hsource : ∀ pc ∈ queue, pc.sourceIndex < balances.length)
    (htarget : ∀ pc ∈ queue, pc.targetIndex < balances.length) :
    (queue.foldl (transfer validators) balances).sum = balances.sum := by
  refine (List.foldlRecOn queue (transfer validators)
    (motive := fun bs => bs.length = balances.length ∧ bs.sum = balances.sum) ⟨rfl, rfl⟩ ?_).2
  rintro bs ⟨hlen, hsum⟩ pc hpc
  rw [length_transfer, sum_transfer (hlen ▸ hsource pc hpc) (hlen ▸ htarget pc hpc)]
  exact ⟨hlen, hsum⟩

theorem getElem?_foldl_transfer {i : Nat}
    (h : ∀ pc ∈ queue, pc.sourceIndex ≠ i ∧ pc.targetIndex ≠ i) :
    (queue.foldl (transfer validators) balances)[i]? = balances[i]? := by
  refine List.foldlRecOn queue (transfer validators)
    (motive := fun bs => bs[i]? = balances[i]?) rfl ?_
  intro bs hbs pc hpc
  rw [getElem?_transfer (h pc hpc).1 (h pc hpc).2, hbs]

theorem balanceAtIndex_run {idx : Nat} (h : idx < st.balances.length) :
    balanceAtIndex idx st = .ok st.balances[idx] st := by
  unfold balanceAtIndex
  rw [get_bind_run, getElem?_eq_getElem h]
  rfl

theorem decreaseBalance_run {idx delta : Nat} (h : idx < st.balances.length) :
    decreaseBalance idx delta st =
      .ok ⟨⟩ { st with balances := st.balances.modify idx (· - delta) } := by
  unfold decreaseBalance updateBalancesAtIndex
  rw [bind_of_ok (balanceAtIndex_run h), modify_run, Withdrawals.decreaseBalanceWithVal_eq,
    modify_eq_set_get _ h]
  rfl

theorem increaseBalance_run {idx delta : Nat} (h : idx < st.balances.length) :
    increaseBalance idx delta st = if st.balances[idx] + delta < 2 ^ 64 then
      .ok ⟨⟩ { st with balances := st.balances.modify idx (· + delta) }
    else .error .addOverflow st := by
  unfold increaseBalance updateBalancesAtIndex safeAdd64
  rw [bind_of_ok (balanceAtIndex_run h), modify_eq_set_get _ h]
  split_ifs <;> rfl

/-- The loop moves what the entries that are due move, or ends at a sum that overflows. -/
theorem consolidationLoop_run (nextEpoch : Nat) (h : NamesExisting st queue) (n : Nat) :
    consolidationLoop nextEpoch queue n st =
        .ok (n + (queue.takeWhile (due st.validators nextEpoch)).length)
          { st with
            balances := (queue.takeWhile (due st.validators nextEpoch)).foldl
              (transfer st.validators) st.balances } ∨
      2 ^ 64 ≤ st.balances.sum ∧
        ∃ st', consolidationLoop nextEpoch queue n st = .error .addOverflow st' := by
  induction queue generalizing st n with
  | nil => exact .inl rfl
  | cons pc rest ih =>
    have hsource := h.source pc mem_cons_self
    have htarget := h.target pc mem_cons_self
    have hrest : ∀ bs : List Nat, bs.length = st.balances.length →
        NamesExisting { st with balances := bs } rest := fun bs hbs =>
      ⟨hbs.trans h.length_balances, fun pc hpc => h.source pc (mem_cons_of_mem _ hpc),
        fun pc hpc => h.target pc (mem_cons_of_mem _ hpc)⟩
    have hlen := h.length_balances
    rw [consolidationLoop, get_bind_run, getElem?_eq_getElem hsource]
    dsimp only
    by_cases hslashed : st.validators[pc.sourceIndex].slashed = true
    · have hdue : due st.validators nextEpoch pc = true := by
        simp [due, hsource, hslashed]
      have hsame : transfer st.validators st.balances pc = st.balances := by
        simp [transfer, hsource, hslashed]
      rw [if_pos hslashed, takeWhile_cons_of_pos hdue, foldl_cons, hsame,
        length_cons, ← Nat.add_assoc, Nat.add_right_comm n]
      exact ih (hrest _ rfl) (n + 1)
    rw [if_neg hslashed]
    by_cases hlate : nextEpoch < st.validators[pc.sourceIndex].withdrawableEpoch
    · have hdue : ¬ due st.validators nextEpoch pc = true := by
        simp [due, hsource, hslashed, hlate]
      rw [if_pos hlate, takeWhile_cons_of_neg hdue]
      exact .inl rfl
    · have hdue : due st.validators nextEpoch pc = true := by
        simpa [due, hsource, hslashed] using hlate
      have hmoved : transfer st.validators st.balances pc =
          (st.balances.modify pc.sourceIndex (· - min (st.balances[pc.sourceIndex])
            st.validators[pc.sourceIndex].effectiveBalance)).modify pc.targetIndex
              (· + min (st.balances[pc.sourceIndex])
                st.validators[pc.sourceIndex].effectiveBalance) := by
        simp [transfer, hsource, hslashed, hlen]
      have hsum : (transfer st.validators st.balances pc).sum = st.balances.sum :=
        sum_transfer (by omega) (by omega)
      rw [if_neg hlate, bind_of_ok (balanceAtIndex_run (by omega)),
        bind_of_ok (decreaseBalance_run (by omega)), takeWhile_cons_of_pos hdue, foldl_cons,
        length_cons, ← Nat.add_assoc, Nat.add_right_comm n, hmoved]
      rw [hmoved] at hsum
      generalize min (st.balances[pc.sourceIndex])
        st.validators[pc.sourceIndex].effectiveBalance = b at *
      have hlt : pc.targetIndex < (st.balances.modify pc.sourceIndex (· - b)).length := by
        simp [hlen, htarget]
      by_cases hfits : (st.balances.modify pc.sourceIndex (· - b))[pc.targetIndex] + b < 2 ^ 64
      · rw [bind_of_ok ((increaseBalance_run hlt).trans (if_pos hfits))]
        have hnext := hrest ((st.balances.modify pc.sourceIndex (· - b)).modify pc.targetIndex
          (· + b)) (by simp)
        obtain hok | ⟨hlarge, herror⟩ := ih hnext (n + 1)
        · exact .inl hok
        · exact .inr ⟨hlarge.trans hsum.le, herror⟩
      · rw [bind_of_error ((increaseBalance_run hlt).trans (if_neg hfits))]
        refine .inr ⟨?_, _, rfl⟩
        have hle := single_le_sum (by simp) _ (getElem_mem hlt)
        rw [sum_modify_add hlt] at hsum
        omega

/-- Pending consolidations conserve the total balance. The call removes the entries that are
due, moves what each of them moves when it is reached, and changes no other balance. It fails
only by an overflow, and not where the total fits. -/
theorem processPendingConsolidations_conserves (cfg : BeaconChainConfig) (st : State)
    (hversion : .electra ≤ st.version) (h : NamesExisting st st.pendingConsolidations) :
    let nextEpoch := add64 (toEpoch cfg st.slot) 1
    let processed := st.pendingConsolidations.takeWhile (due st.validators nextEpoch)
    match processPendingConsolidations cfg st with
    | .ok _ st' =>
      st' = { st with
        balances := processed.foldl (transfer st.validators) st.balances
        pendingConsolidations := st.pendingConsolidations.drop processed.length } ∧
      st'.balances.sum = st.balances.sum ∧
      ∀ i, (∀ pc ∈ processed, pc.sourceIndex ≠ i ∧ pc.targetIndex ≠ i) →
        st'.balances[i]? = st.balances[i]?
    | .error e _ => e = .addOverflow ∧ 2 ^ 64 ≤ st.balances.sum := by
  intro nextEpoch processed
  have hnot : ¬ st.version < .electra := Nat.not_lt.mpr hversion
  obtain hok | ⟨hlarge, st', herror⟩ := consolidationLoop_run nextEpoch h 0
  · have hrun : processPendingConsolidations cfg st = .ok ⟨⟩ { st with
        balances := processed.foldl (transfer st.validators) st.balances
        pendingConsolidations := st.pendingConsolidations.drop processed.length } := by
      unfold processPendingConsolidations
      rw [get_bind_run, if_neg hnot, bind_of_ok hok, Nat.zero_add]
      split_ifs with hpos
      · rfl
      · rw [Nat.eq_zero_of_not_pos hpos]
        rfl
    rw [hrun]
    refine ⟨rfl, sum_foldl_transfer ?_ ?_, fun i hi => getElem?_foldl_transfer hi⟩
    · intro pc hpc
      rw [h.length_balances]
      exact h.source pc (( takeWhile_prefix _).subset hpc)
    · intro pc hpc
      rw [h.length_balances]
      exact h.target pc (( takeWhile_prefix _).subset hpc)
  · have hrun : processPendingConsolidations cfg st = .error .addOverflow st' := by
      unfold processPendingConsolidations
      rw [get_bind_run, if_neg hnot, bind_of_error herror]
    rw [hrun]
    exact ⟨rfl, hlarge⟩

/-- The first validator goes into the second, and both into the third. -/
def chained (targetBalance : Nat) : State where
  version := .electra
  slot := 0
  validators := [{ withdrawableEpoch := 0 }, { withdrawableEpoch := 1 }, {}]
  balances := [10, targetBalance, 7]
  pendingConsolidations := [⟨0, 1⟩, ⟨1, 2⟩, ⟨2, 0⟩]

theorem processPendingConsolidations_chained :
    processPendingConsolidations {} (chained 20) = .ok ⟨⟩ { chained 20 with
      balances := [0, 0, 37]
      pendingConsolidations := [⟨2, 0⟩] } ∧
    [0, 0, 37].sum = (chained 20).balances.sum := by
  have hrun : processPendingConsolidations {} (chained 20) = .ok ⟨⟩ { chained 20 with
      balances := [0, 0, 37]
      pendingConsolidations := [⟨2, 0⟩] } := rfl
  have h := processPendingConsolidations_conserves {} (chained 20) (by decide)
    ⟨rfl, by decide, by decide⟩
  rw [hrun] at h
  exact ⟨hrun, h.2.1⟩

/-- The target cannot take the balance, and the source has lost it when the call fails. -/
theorem processPendingConsolidations_overflow :
    NamesExisting (chained (2 ^ 64 - 5)) (chained (2 ^ 64 - 5)).pendingConsolidations ∧
    processPendingConsolidations {} (chained (2 ^ 64 - 5)) = .error .addOverflow
      { chained (2 ^ 64 - 5) with balances := [0, 2 ^ 64 - 5, 7] } := by
  refine ⟨⟨rfl, by decide, by decide⟩, ?_⟩
  rfl

end LightChain.Consolidations

import LightChain.Electra.DepositOrder

/-!
# Every pending deposit is accounted for

Of the deposits a run takes from the queue each is credited to the validator of its key,
postponed, or rejected, and nothing else changes a balance.
-/
namespace LightChain.Electra
open Library Epoch List

def credits (st : State) (ds : List PendingDeposit) (i : Nat) : Nat :=
  ((ds.filter fun d => st.validatorIndexByPubkey d.publicKey = some i).map (·.amount)).sum

/-- `st'` is `st` with the deposits `applied` credited, each to the validator of its key;
`rejected` are those that could not create their validator. -/
structure Accounted (v : Verifier) (st st' : State) (applied rejected : List PendingDeposit) :
    Prop where
  grows : Extends st st'
  balances : ∀ i, st'.balances.getD i 0 = st.balances.getD i 0 + credits st' applied i
  known : ∀ d ∈ applied, st'.validatorIndexByPubkey d.publicKey ≠ none
  invalid : ∀ d ∈ rejected, v.isValidDepositSignature d = false ∧
    st.validatorIndexByPubkey d.publicKey = none

section Credits

variable {st st' : State} {ds : List PendingDeposit} {d : PendingDeposit}

theorem credits_append_singleton (i : Nat) :
    credits st (ds ++ [d]) i =
      credits st ds i + if st.validatorIndexByPubkey d.publicKey = some i then d.amount else 0 := by
  unfold credits
  rw [filter_append, map_append, sum_append]
  split_ifs with h <;> simp [h]

theorem Extends.credits_eq (h : Extends st st')
    (hknown : ∀ d ∈ ds, st.validatorIndexByPubkey d.publicKey ≠ none) (i : Nat) :
    credits st' ds i = credits st ds i := by
  unfold credits
  congr 2
  apply filter_congr
  intro d hd
  obtain ⟨j, hj⟩ := Option.ne_none_iff_exists'.mp (hknown d hd)
  rw [hj, h.known _ j hj]

theorem getD_set (l : List Nat) {i : Nat} (hi : i < l.length) (x j : Nat) :
    (l.set i x).getD j 0 = if i = j then x else l.getD j 0 := by
  rw [getD_eq_getElem?_getD, getElem?_set]
  split_ifs with hij
  · rfl
  · rw [getD_eq_getElem?_getD]

end Credits

section Accounted

variable {cfg : BeaconChainConfig} {v : Verifier} {st s s' : State}
  {applied rejected : List PendingDeposit} {d : PendingDeposit}

theorem Accounted.refl (st : State) : Accounted v st st [] [] where
  grows := .refl st
  balances _ := rfl
  known := forall_mem_nil _
  invalid := forall_mem_nil _

section

variable (h : Accounted v st s applied rejected)

include h

theorem Accounted.credit (hs : Extends s s') {i : Nat}
    (hd : s'.validatorIndexByPubkey d.publicKey = some i)
    (hbal : ∀ j, s'.balances.getD j 0 = s.balances.getD j 0 + if i = j then d.amount else 0) :
    Accounted v st s' (applied ++ [d]) rejected where
  grows := h.grows.trans hs
  balances j := by
    rw [hbal, h.balances, credits_append_singleton, hs.credits_eq h.known, hd, Nat.add_assoc]
    simp
  known e he := by
    rcases List.mem_append.mp he with he | he
    · obtain ⟨k, hk⟩ := Option.ne_none_iff_exists'.mp (h.known e he)
      rw [hs.known _ k hk]
      nofun
    · rw [List.mem_singleton.mp he, hd]
      nofun
  invalid := h.invalid

theorem Accounted.reject (hd : s.validatorIndexByPubkey d.publicKey = none)
    (hsig : v.isValidDepositSignature d = false) :
    Accounted v st s applied (rejected ++ [d]) where
  grows := h.grows
  balances := h.balances
  known := h.known
  invalid e he := by
    rcases List.mem_append.mp he with he | he
    · exact h.invalid e he
    · rw [List.mem_singleton.mp he]
      refine ⟨hsig, ?_⟩
      cases hk : st.validatorIndexByPubkey d.publicKey with
      | none => rfl
      | some i =>
        rw [h.grows.known _ i hk] at hd
        cases hd

theorem Accounted.apply (hstep : applyPendingDeposit cfg v s d = .ok s') :
    Accounted v st s' (applied ++ [d]) rejected ∨ Accounted v st s' applied (rejected ++ [d]) := by
  have hext := extends_applyPendingDeposit hstep
  rcases applyPendingDeposit_cases hstep with
    ⟨i, bal, hi, hbal, rfl⟩ | ⟨hnone, ⟨-, rfl⟩ | ⟨hsig, rfl⟩⟩
  · refine .inl (h.credit hext (i := i) hi fun j => ?_)
    obtain ⟨hlt, hget⟩ := List.getElem?_eq_some_iff.mp hbal
    rw [balances_updateBalancesAtIndex, getD_set _ hlt]
    split_ifs with hij
    · subst hij
      rw [getD_eq_getElem _ _ hlt, hget]
    · rfl
  · -- the new validator is the last of the registry, and of the balances
    have hkey : (addValidatorToRegistry cfg s d).validatorIndexByPubkey d.publicKey =
        some s.balances.length := by
      rw [validatorIndexByPubkey_eq_some, s.length_balances]
      exact ⟨Function.update_self d.publicKey _ s.valIdxMap, by simp [addValidatorToRegistry]⟩
    refine .inl (h.credit hext hkey fun j => ?_)
    rw [show (addValidatorToRegistry cfg s d).balances = s.balances ++ [d.amount] from rfl]
    rcases lt_trichotomy j s.balances.length with hj | hj | hj
    · rw [getD_append _ _ _ _ hj, if_neg (by omega), Nat.add_zero]
    · subst hj
      simp
    · rw [getD_eq_default _ _ (by simpa using hj), getD_eq_default _ _ hj.le,
        if_neg (by omega)]
  · exact .inr (h.reject hnone hsig)

end

end Accounted

/-- The deposits taken from the queue so far, and where each of them went. -/
def Ledger (v : Verifier) (st : State) (taken : List PendingDeposit) (p : Progress) : Prop :=
  ∃ applied rejected, Accounted v st p.st applied rejected ∧
    (applied ++ p.toPostpone ++ rejected).Perm taken ∧ p.toPostpone.Sublist taken ∧
    p.nextDepositIndex = taken.length

section Ledger

variable {cfg : BeaconChainConfig} {v : Verifier} {b : Bounds} {st : State}
  {taken : List PendingDeposit} {p p' : Progress} {d : PendingDeposit}

section

variable (h : Ledger v st taken p)

include h

theorem Ledger.postpone : Ledger v st (taken ++ [d]) (p.postpone d).moveOn := by
  obtain ⟨applied, rejected, hacc, hperm, hsub, hidx⟩ := h
  refine ⟨applied, rejected, hacc, ?_, hsub.append_right [d], ?_⟩
  · refine List.Perm.trans ?_ (hperm.append_right [d])
    change (applied ++ (p.toPostpone ++ [d]) ++ rejected).Perm _
    simpa only [append_assoc] using
      (perm_append_comm : ([d] ++ _).Perm _).append_left (applied ++ p.toPostpone)
  · rw [length_append, ← hidx]
    rfl

theorem Ledger.consume : Ledger v st taken (p.consume d) := h

theorem Ledger.credit (hstep : creditAtOnce cfg v p d = .ok p') :
    Ledger v st (taken ++ [d]) p'.moveOn := by
  obtain ⟨applied, rejected, hacc, hperm, hsub, hidx⟩ := h
  have ho := toOption_eq_some.mpr hstep
  rw [creditAtOnce, toOption_map, Option.map_eq_some_iff] at ho
  obtain ⟨s', hs', rfl⟩ := ho
  have hlen : p.nextDepositIndex + 1 = (taken ++ [d]).length := by
    rw [length_append, hidx]
    rfl
  have hsub' : p.toPostpone.Sublist (taken ++ [d]) := hsub.trans (sublist_append_left _ _)
  have hperm' := hperm.append_right [d]
  rcases hacc.apply (toOption_eq_some.mp hs') with hcredit | hreject
  · refine ⟨applied ++ [d], rejected, hcredit, ?_, hsub', hlen⟩
    refine List.Perm.trans ?_ hperm'
    change (applied ++ [d] ++ p.toPostpone ++ rejected).Perm _
    simpa only [append_assoc] using
      (perm_append_comm : ([d] ++ (p.toPostpone ++ rejected)).Perm _).append_left applied
  · refine ⟨applied, rejected ++ [d], hreject, ?_, hsub', hlen⟩
    change (applied ++ p.toPostpone ++ (rejected ++ [d])).Perm _
    simpa only [append_assoc] using hperm'

/-- The loop takes deposits from the front of the queue. -/
theorem Ledger.depositLoop {ds : List PendingDeposit}
    (hrun : depositLoop cfg b (creditAtOnce cfg v) ds p = .ok p') :
    ∃ more, more <+: ds ∧ Ledger v st (taken ++ more) p' := by
  induction ds generalizing taken p with
  | nil =>
    cases hrun
    exact ⟨[], nil_prefix, by rwa [append_nil]⟩
  | cons d ds ih =>
    have stay : ∀ q, Ledger v st taken q → ∃ more, more <+: d :: ds ∧
        Ledger v st (taken ++ more) q :=
      fun q hq => ⟨[], nil_prefix, by rwa [append_nil]⟩
    have goOn : ∀ q, Ledger v st (taken ++ [d]) q →
        Electra.depositLoop cfg b (creditAtOnce cfg v) ds q = .ok p' →
        ∃ more, more <+: d :: ds ∧ Ledger v st (taken ++ more) p' := by
      intro q hq hq'
      obtain ⟨more, hmore, hled⟩ := ih hq hq'
      exact ⟨d :: more, prefix_cons_inj d |>.mpr hmore, by simpa using hled⟩
    rw [Electra.depositLoop] at hrun
    by_cases hstop : stopsBefore cfg b p d = true
    · rw [if_pos hstop] at hrun
      cases hrun
      exact stay _ h
    · rw [if_neg hstop] at hrun
      obtain ⟨status, -, hrun⟩ := bind_eq_ok.mp hrun
      dsimp only at hrun
      split_ifs at hrun
      · obtain ⟨q, hq, hrun⟩ := bind_eq_ok.mp hrun
        exact goOn _ (h.credit hq) hrun
      · exact goOn _ h.postpone hrun
      · cases hrun
        exact stay _ h
      · obtain ⟨q, hq, hrun⟩ := bind_eq_ok.mp hrun
        exact goOn _ (h.consume.credit hq) hrun

end

end Ledger

section Process

variable (cfg : BeaconChainConfig) (v : Verifier)

theorem processPendingDepositsOneByOne_accounted {st st' : State} {activeBalance : Nat}
    (h : processPendingDepositsOneByOne cfg v st activeBalance = .ok st') :
    ∃ n applied postponed rejected,
      st'.pendingDeposits = st.pendingDeposits.drop n ++ postponed ∧
      (applied ++ postponed ++ rejected).Perm (st.pendingDeposits.take n) ∧
      postponed.Sublist (st.pendingDeposits.take n) ∧
      Accounted v st st' applied rejected := by
  unfold processPendingDepositsOneByOne at h
  obtain ⟨b, -, h⟩ := bind_eq_ok.mp h
  obtain ⟨p, hrun, h⟩ := bind_eq_ok.mp h
  cases h
  have start : Ledger v st [] { st } :=
    ⟨[], [], .refl st, .refl _, .refl _, rfl⟩
  obtain ⟨taken, htaken, applied, rejected, hacc, hperm, hsub, hidx⟩ := start.depositLoop hrun
  rw [nil_append] at hperm hsub hidx
  rw [List.prefix_iff_eq_take.mp htaken, ← hidx] at hperm hsub
  exact ⟨p.nextDepositIndex, applied, p.toPostpone, rejected, rfl, hperm, hsub,
    ⟨hacc.grows.known, hacc.grows.new, hacc.grows.validators, hacc.grows.eth1DepositIndex⟩,
    hacc.balances, hacc.known, hacc.invalid⟩

/-- Verifying the new deposits in one batch after the loop gives the registry, the balances,
the queue and the churn balance of the sequential specification. -/
theorem processPendingDeposits_sequential (st : State) (activeBalance : Nat) :
    (processPendingDeposits cfg v st activeBalance).toOption =
      (processPendingDepositsOneByOne cfg v st activeBalance).toOption ∧
    ∀ st', processPendingDeposits cfg v st activeBalance = .ok st' →
      ∃ n applied postponed rejected,
        st'.pendingDeposits = st.pendingDeposits.drop n ++ postponed ∧
        (applied ++ postponed ++ rejected).Perm (st.pendingDeposits.take n) ∧
        postponed.Sublist (st.pendingDeposits.take n) ∧
        Accounted v st st' applied rejected := by
  refine ⟨toOption_processPendingDeposits st activeBalance, fun st' h => ?_⟩
  apply processPendingDepositsOneByOne_accounted cfg v
  rw [← toOption_eq_some, ← toOption_processPendingDeposits, h, toOption_ok]

/-- One validator and a queue with a new key twice, a key with a bad signature and a deposit
for the validator itself. -/
def mixedQueue : State where
  slot := 320
  validators := [{ publicKey := 1, withdrawalCredentials := 0 }]
  balances := [32000000000]
  inactivityScores := [0]
  previousEpochParticipation := [0]
  currentEpochParticipation := [0]
  valIdxMap key := if key = 1 then some 0 else none
  finalizedCheckpointEpoch := 8
  eth1DepositIndex := 0
  depositRequestsStartIndex := 0
  pendingDeposits :=
    [⟨7, 0, 32000000000, 0, 1⟩, ⟨9, 0, 5, 1, 2⟩, ⟨1, 0, 3, 1, 3⟩, ⟨7, 0, 4, 1, 4⟩, ⟨7, 0, 6, 1, 300⟩]
  depositBalanceToConsume := 0
  length_balances := rfl

def zeroSignature : Verifier where
  isValidDepositSignature d := d.signature == 0
  batchVerifyPendingDepositsSignatures ds := ds.all fun d => d.signature == 0
  batch_eq_all _ := rfl

theorem processPendingDeposits_sequential_mixedQueue :
    ∃ st', processPendingDeposits {} zeroSignature mixedQueue 0 = .ok st' ∧
      (st'.balances, st'.pendingDeposits) =
        ([32000000003, 32000000004], [⟨7, 0, 6, 1, 300⟩]) ∧
      ∃ applied rejected, Accounted zeroSignature mixedQueue st' applied rejected := by
  have hrun : (processPendingDeposits {} zeroSignature mixedQueue 0).toOption.map
      (fun st => (st.balances, st.pendingDeposits)) =
        some ([32000000003, 32000000004], [⟨7, 0, 6, 1, 300⟩]) := by decide +kernel
  obtain ⟨st', hst', hfields⟩ := Option.map_eq_some_iff.mp hrun
  have hok := toOption_eq_some.mp hst'
  obtain ⟨n, applied, postponed, rejected, -, -, -, hacc⟩ :=
    (processPendingDeposits_sequential {} zeroSignature mixedQueue 0).2 st' hok
  exact ⟨st', hok, hfields, applied, rejected, hacc⟩

end Process

end LightChain.Electra

import LightChain.Epoch.Ejection

/-!
# The exit queue before Electra

`InitiateValidatorExit` does not look for the end of the queue in the registry: the calls share
an `ExitInfo` with the last exit epoch and its churn. `exitFromRegistry` is the specification,
which reads both from the registry for each exit. The counters follow the registry through every
call, so both give every validator the same epochs.
-/
namespace LightChain.Epoch
open Library List

def exitEpochs (vs : List Validator) : List Nat :=
  (vs.map (·.exitEpoch)).filter (· ≠ farFutureEpoch)

section Specification

variable (cfg : BeaconChainConfig) (st : BeaconState)

def exitsAt (epoch : Nat) : Nat := (exitEpochs st.validators).count epoch

def lastExitEpoch : Nat :=
  (exitEpochs st.validators).foldr max (activationExitEpoch cfg (currentEpoch cfg st))

def exitLimit : Nat := validatorExitChurnLimit cfg (activeValidatorCount st (currentEpoch cfg st))

def nextExitEpoch : Except Error Nat :=
  if exitLimit cfg st ≤ exitsAt st (lastExitEpoch cfg st) then checkedAdd (lastExitEpoch cfg st) 1
  else .ok (lastExitEpoch cfg st)

/-- `initiate_validator_exit`. -/
def exitFromRegistry (idx : Nat) : Except Error BeaconState := do
  let v ← validatorAtIndex st idx
  if v.exitEpoch ≠ farFutureEpoch then return st
  else
    let epoch ← nextExitEpoch cfg st
    let withdrawable ← checkedAdd epoch cfg.minValidatorWithdrawabilityDelay
    updateValidatorAtIndex st idx (v.exitAt epoch withdrawable)

variable (wrap : Nat → Error → Error) (indices : List Nat)

/-- Exits in the order of a list, with the counters that `ExitInformation` returns. -/
def exitAll : Except Error BeaconState :=
  (indices.foldlM (eject cfg wrap) (st, exitInformation cfg st)).map Prod.fst

def exitAllFromRegistry : Except Error BeaconState :=
  indices.foldlM (fun st idx => (exitFromRegistry cfg st idx).mapError (wrap idx)) st

end Specification

section Queue

variable {cfg : BeaconChainConfig} {st st' : BeaconState}

theorem foldr_max_le {xs : List Nat} {a b : Nat} :
    xs.foldr max a ≤ b ↔ a ≤ b ∧ ∀ x ∈ xs, x ≤ b := by
  induction xs with
  | nil => simp
  | cons x xs ih => simp [ih, and_left_comm]

variable {epoch : Nat}

theorem exitsAt_eq_zero (h : lastExitEpoch cfg st < epoch) : exitsAt st epoch = 0 :=
  List.count_eq_zero.2 fun hmem => h.not_ge ((foldr_max_le.1 le_rfl).2 epoch hmem)

/-- The pass of `ExitInformation` finds the last exit epoch and its churn. -/
theorem foldl_recordExit (vs : List Validator) :
    (∀ b, (vs.foldl recordExit {}).highestExitEpoch ≤ b ↔ ∀ x ∈ exitEpochs vs, x ≤ b) ∧
    (vs.foldl recordExit {}).churn =
      (exitEpochs vs).count (vs.foldl recordExit {}).highestExitEpoch := by
  induction vs using List.reverseRecOn with
  | nil => simp [exitEpochs]
  | append_singleton vs v ih =>
    obtain ⟨hle, hchurn⟩ := ih
    have hbound := (hle _).1 le_rfl
    have hexits : exitEpochs (vs ++ [v]) =
        exitEpochs vs ++ if v.exitEpoch = farFutureEpoch then [] else [v.exitEpoch] := by
      simp [exitEpochs, filter_cons]
    rw [foldl_append, foldl_cons, foldl_nil, hexits]
    generalize vs.foldl recordExit {} = info at *
    unfold recordExit
    split_ifs with hfar hlt heq
    · simp [hle, hchurn]
    · have hnone : v.exitEpoch ∉ exitEpochs vs := fun hmem => hlt.not_ge (hbound _ hmem)
      refine ⟨fun b => ?_, by simp [List.count_eq_zero.2 hnone]⟩
      simp only [forall_mem_append, forall_mem_singleton, ← hle]
      omega
    · refine ⟨fun b => ?_, by simp [hchurn, heq]⟩
      simp only [forall_mem_append, forall_mem_singleton, ← hle]
      omega
    · refine ⟨fun b => ?_, by simp [hchurn, heq]⟩
      simp only [forall_mem_append, forall_mem_singleton, ← hle]
      omega

/-- The counters are those of the registry once the queue has been started. -/
def Follows (cfg : BeaconChainConfig) (st : BeaconState) (info : ExitInfo) : Prop :=
  startQueue cfg st info = { info with
    highestExitEpoch := lastExitEpoch cfg st
    churn := exitsAt st (lastExitEpoch cfg st) }

theorem follows_exitInformation (cfg : BeaconChainConfig) (st : BeaconState) :
    Follows cfg st (exitInformation cfg st) := by
  obtain ⟨hle, hchurn⟩ := foldl_recordExit st.validators
  unfold Follows startQueue exitInformation
  generalize st.validators.foldl recordExit {} = info at *
  have hlast (b : Nat) : lastExitEpoch cfg st ≤ b ↔
      activationExitEpoch cfg (currentEpoch cfg st) ≤ b ∧ info.highestExitEpoch ≤ b := by
    rw [lastExitEpoch, foldr_max_le, hle]
  dsimp only
  split_ifs with hlt
  · have heq : lastExitEpoch cfg st = activationExitEpoch cfg (currentEpoch cfg st) :=
      eq_of_forall_ge_iff fun b => (hlast b).trans (by omega)
    have hnone : exitsAt st (lastExitEpoch cfg st) = 0 :=
      List.count_eq_zero.2 fun hmem => by
        have := (hle _).1 le_rfl _ hmem
        omega
    rw [hnone, heq]
  · have heq : lastExitEpoch cfg st = info.highestExitEpoch :=
      eq_of_forall_ge_iff fun b => (hlast b).trans (by omega)
    rw [heq, exitsAt, ← hchurn]

variable {info : ExitInfo} {idx : Nat} {v : Validator}

theorem nextExitEpoch_error {e : Error} (h : nextExitEpoch cfg st = .error e) :
    e = .addOverflow := by
  unfold nextExitEpoch at h
  split_ifs at h
  exact checkedAdd_error h

theorem nextExitEpoch_ok (h : nextExitEpoch cfg st = .ok epoch) :
    lastExitEpoch cfg st ≤ epoch ∧ (exitsAt st epoch < exitLimit cfg st ∨ exitsAt st epoch = 0) := by
  unfold nextExitEpoch at h
  split_ifs at h with hfull
  · obtain ⟨-, rfl⟩ := checkedAdd_eq_ok.1 h
    exact ⟨Nat.le_succ _, .inr (exitsAt_eq_zero (Nat.lt_succ_self _))⟩
  · obtain rfl := Except.ok.inj h
    exact ⟨le_rfl, .inl (Nat.not_le.1 hfull)⟩

theorem initiateValidatorExitPreElectra_eq (h : Follows cfg st info) :
    initiateValidatorExitPreElectra cfg st info = (nextExitEpoch cfg st).map fun epoch =>
      { info with highestExitEpoch := epoch, churn := exitsAt st epoch + 1 } := by
  unfold initiateValidatorExitPreElectra nextExitEpoch
  rw [h, exitLimit]
  dsimp only
  split_ifs with hfull
  · cases hnext : checkedAdd (lastExitEpoch cfg st) 1 with
    | error e => rfl
    | ok next =>
      obtain ⟨-, rfl⟩ := checkedAdd_eq_ok.1 hnext
      rw [ok_bind, Except.map, exitsAt_eq_zero (Nat.lt_succ_self (lastExitEpoch cfg st))]
      rfl
  · rfl

structure NewExit (cfg : BeaconChainConfig) (st st' : BeaconState) (epoch : Nat) : Prop where
  next : nextExitEpoch cfg st = .ok epoch
  slot : st'.slot = st.slot
  version : st'.version = st.version
  exits : (exitEpochs st'.validators).Perm (epoch :: exitEpochs st.validators)
  active : ∀ e, activeValidatorCount st' e ≤ activeValidatorCount st e

theorem newExit_set (hv : st.validators[idx]? = some v) (hfar : v.exitEpoch = farFutureEpoch)
    (hnext : nextExitEpoch cfg st = .ok epoch) (hepoch : epoch < farFutureEpoch)
    (withdrawable : Nat) : NewExit cfg st
      { st with validators := st.validators.set idx (v.exitAt epoch withdrawable) } epoch := by
  obtain ⟨hlt, rfl⟩ := List.getElem?_eq_some_iff.1 hv
  have hold := getElem_cons_eraseIdx_perm hlt
  have hnew := set_perm_cons_eraseIdx hlt (st.validators[idx].exitAt epoch withdrawable)
  refine ⟨hnext, rfl, rfl, ?_, fun e => ?_⟩
  · refine ((hnew.map _).filter _).trans (.trans ?_ (((hold.map _).filter _).cons epoch))
    rw [map_cons, map_cons, filter_cons_of_pos (by exact decide_eq_true hepoch.ne),
      filter_cons_of_neg (by simpa using hfar)]
    exact .refl _
  · unfold activeValidatorCount
    rw [hnew.countP_eq, ← hold.countP_eq, countP_cons, countP_cons]
    have hactive : isActiveValidator (st.validators[idx].exitAt epoch withdrawable) e = true →
        isActiveValidator st.validators[idx] e = true := by
      rw [isActiveValidator, isActiveValidator, Bool.and_eq_true, Bool.and_eq_true, hfar]
      exact And.imp_right fun h => decide_eq_true ((of_decide_eq_true h).trans hepoch)
    split_ifs <;> simp_all

theorem NewExit.exitsAt (h : NewExit cfg st st' epoch) (e : Nat) :
    exitsAt st' e = exitsAt st e + if epoch = e then 1 else 0 := by
  rw [Epoch.exitsAt, h.exits.count_eq, count_cons]
  simp [Epoch.exitsAt]

theorem NewExit.exitLimit_le (h : NewExit cfg st st' epoch) :
    exitLimit cfg st' ≤ exitLimit cfg st := by
  unfold exitLimit validatorExitChurnLimit calculateChurnLimit currentEpoch
  rw [h.slot]
  exact max_le_max le_rfl (Nat.div_le_div_right (h.active _))

theorem NewExit.follows (h : NewExit cfg st st' epoch) :
    Follows cfg st' { info with highestExitEpoch := epoch, churn := Epoch.exitsAt st epoch + 1 } := by
  have hle := foldr_max_le.1 (nextExitEpoch_ok h.next).1
  have hstart : activationExitEpoch cfg (currentEpoch cfg st') ≤ epoch := by
    rw [currentEpoch, h.slot]
    exact hle.1
  have hlast : lastExitEpoch cfg st' = epoch := by
    refine eq_of_forall_ge_iff fun b => ?_
    rw [lastExitEpoch, foldr_max_le]
    refine ⟨fun hb => hb.2 epoch (h.exits.mem_iff.2 mem_cons_self), fun hb =>
      ⟨hstart.trans hb, fun x hx => ?_⟩⟩
    rcases mem_cons.1 (h.exits.mem_iff.1 hx) with rfl | hx
    · exact hb
    · exact (hle.2 x hx).trans hb
  rw [Follows, startQueue, if_neg (Nat.not_lt.2 hstart), hlast, h.exitsAt, if_pos rfl]

section

variable (wrap : Nat → Error → Error) (h : Follows cfg st info) (hversion : st.version < .electra)

include wrap h hversion

/-- One call with counters that follow the registry: it leaves the registry or adds an exit. -/
theorem eject_eq (idx : Nat) :
    match exitFromRegistry cfg st idx with
    | .ok st' => (st' = st ∨ ∃ epoch, NewExit cfg st st' epoch) ∧
        ∃ info', eject cfg wrap (st, info) idx = .ok (st', info') ∧ Follows cfg st' info'
    | .error e => eject cfg wrap (st, info) idx = .error (wrap idx e) := by
  unfold eject initiateValidatorExit exitFromRegistry exitQueueEpoch
  cases hv : validatorAtIndex st idx with
  | error e =>
    unfold validatorAtIndex at hv
    cases hget : st.validators[idx]? with
    | some v => simp [hget] at hv
    | none =>
      simp only [hget, Except.error.injEq] at hv
      subst hv
      rfl
  | ok v =>
    rw [ok_bind, ok_bind]
    by_cases hfar : v.exitEpoch = farFutureEpoch
    swap
    · rw [if_pos hfar, if_pos hfar]
      exact ⟨.inl rfl, info, rfl, h⟩
    rw [if_neg (not_not.2 hfar), if_neg (not_not.2 hfar), if_pos hversion,
      initiateValidatorExitPreElectra_eq h]
    cases hnext : nextExitEpoch cfg st with
    | error e =>
      obtain rfl := nextExitEpoch_error hnext
      rfl
    | ok epoch =>
      simp only [Except.map, ok_bind, pure, Except.pure]
      cases hwith : checkedAdd epoch cfg.minValidatorWithdrawabilityDelay with
      | error e =>
        obtain rfl := checkedAdd_error hwith
        rfl
      | ok withdrawable =>
        have hget := validatorAtIndex_eq_ok.1 hv
        have hlt : epoch < farFutureEpoch := by
          have := (checkedAdd_eq_ok.1 hwith).1
          have := cfg.withdrawabilityDelay_pos
          rw [farFutureEpoch]
          omega
        have hnew := newExit_set hget hfar hnext hlt withdrawable
        have hset := (updateValidatorAtIndex_eq_ok (v := v.exitAt epoch withdrawable)).2
          ⟨(List.getElem?_eq_some_iff.1 hget).1, rfl⟩
        rw [ok_bind, ok_bind, Validator.exitAt] at *
        rw [hset]
        exact ⟨.inr ⟨epoch, hnew⟩, _, rfl, hnew.follows⟩

theorem exitAllFromRegistry_eq (indices : List Nat) :
    (indices.foldlM (eject cfg wrap) (st, info)).map Prod.fst =
      exitAllFromRegistry cfg st wrap indices := by
  unfold exitAllFromRegistry
  induction indices generalizing st info with
  | nil => rfl
  | cons idx indices ih =>
    have hcall := eject_eq wrap h hversion idx
    rw [foldlM_cons, foldlM_cons]
    cases hstep : exitFromRegistry cfg st idx with
    | error e =>
      simp only [hstep] at hcall
      rw [hcall]
      rfl
    | ok st' =>
      simp only [hstep] at hcall
      obtain ⟨hchange, info', hrun, hfollows⟩ := hcall
      rw [hrun]
      refine ih hfollows ?_
      rcases hchange with rfl | ⟨epoch, hnew⟩
      · exact hversion
      · rwa [hnew.version]

end

/-- An epoch without an exit gets at most as many as the churn limit allows. -/
theorem exitsAt_le_exitLimit (hmin : 0 < cfg.minPerEpochChurnLimit)
    (hversion : st.version < .electra) {wrap : Nat → Error → Error} {indices : List Nat}
    (hrun : exitAllFromRegistry cfg st wrap indices = .ok st') (hnone : exitsAt st epoch = 0) :
    exitsAt st' epoch ≤ exitLimit cfg st := by
  have hpos : 0 < exitLimit cfg st := hmin.trans_le (le_max_left _ _)
  refine (foldlM_invariant (P := fun s => s.version < .electra ∧
    exitLimit cfg s ≤ exitLimit cfg st ∧ exitsAt s epoch ≤ exitLimit cfg st) ?_
    ⟨hversion, le_rfl, by omega⟩ hrun).2.2
  rintro s idx s' - ⟨hv, hlimit, hle⟩ hstep
  have hcall := eject_eq wrap (follows_exitInformation cfg s) hv idx
  simp only [ok_of_mapError hstep] at hcall
  rcases hcall.1 with rfl | ⟨e, hnew⟩
  · exact ⟨hv, hlimit, hle⟩
  · refine ⟨by rwa [hnew.version], hnew.exitLimit_le.trans hlimit, ?_⟩
    rw [hnew.exitsAt]
    split_ifs with he
    · subst he
      have := (nextExitEpoch_ok hnew.next).2
      omega
    · exact hle

/-- For every registry before Electra and every list of validators, with repeats and with
validators that exit already, the calls with shared counters do what the specification does. They
leave the exits that were there, and no epoch without an exit gets more of them than the churn
limit. -/
theorem exitAll_eq_exitAllFromRegistry (hmin : 0 < cfg.minPerEpochChurnLimit)
    (wrap : Nat → Error → Error) (hversion : st.version < .electra) (indices : List Nat) :
    exitAll cfg st wrap indices = exitAllFromRegistry cfg st wrap indices ∧
    ∀ st', exitAll cfg st wrap indices = .ok st' →
      (∀ (i : Nat) (v : Validator), st.validators[i]? = some v → v.exitEpoch ≠ farFutureEpoch →
        st'.validators[i]? = some v) ∧
      ∀ epoch, exitsAt st epoch = 0 → exitsAt st' epoch ≤ exitLimit cfg st := by
  have heq : exitAll cfg st wrap indices = exitAllFromRegistry cfg st wrap indices :=
    exitAllFromRegistry_eq wrap (follows_exitInformation cfg st) hversion indices
  refine ⟨heq, fun st' hrun => ⟨fun i v hv hexits => ?_, fun epoch hnone => ?_⟩⟩
  · cases hfold : indices.foldlM (eject cfg wrap) (st, exitInformation cfg st) with
    | error e => simp [exitAll, hfold, Except.map] at hrun
    | ok s =>
      obtain rfl : s.1 = st' := by simpa [exitAll, hfold, Except.map] using hrun
      exact (ejected_foldlM Prod.fst (fun _ _ _ => eject_ok) hfold).kept i v hv (.inr hexits)
  · exact exitsAt_le_exitLimit hmin hversion (heq ▸ hrun) hnone

theorem exitAll_eq_six : exitAll {} (six .deneb 105 []) (fun _ e => e) [1, 0, 1, 2] =
    .ok { six .deneb 105 [] with
      validators := { exitEpoch := 105 } ::
        (List.replicate 2 { exitEpoch := 105, withdrawableEpoch := 361 } ++
          List.replicate 3 {}) } := by
  rw [(exitAll_eq_exitAllFromRegistry (by decide) _ (by decide) _).1]
  decide +kernel

end Queue

end LightChain.Epoch

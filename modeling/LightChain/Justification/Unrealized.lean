import LightChain.Justification.Specification

/-!
# Unrealized checkpoints

`UnrealizedCheckpoints` counts the target balances from the registry and the raw
participation bytes, the epoch transition from the precomputed records. For a registry
whose effective balances fit they count the same (`precomputed_targets`), so the answer
for a state in the middle of an epoch is what the state is left with after the empty slots
to the end of that epoch (`unrealizedCheckpoints_predict_transition`).
-/
namespace LightChain.Justification
open Library Epoch List Nat

variable {cfg : ChainConfig} {Root : Type}

/-- What a state keeps about one validator. -/
structure Entry where
  validator : Validator
  score : Nat
  current : BitVec 8
  previous : BitVec 8

open Entry

/-- The lists of the state list the same validators. -/
def Aligned (st : Epoch.BeaconState) (entries : List Entry) : Prop :=
  st.validators = entries.map (·.validator) ∧ st.inactivityScores = entries.map (·.score) ∧
    st.currentEpochParticipation = entries.map (·.current) ∧
    st.previousEpochParticipation = entries.map (·.previous)

theorem exists_entries (vs : List Validator) (scores : List Nat) (cs ps : List (BitVec 8))
    (hs : scores.length = vs.length) (hc : cs.length = vs.length) (hp : ps.length = vs.length) :
    ∃ entries : List Entry, vs = entries.map (·.validator) ∧ scores = entries.map (·.score) ∧
      cs = entries.map (·.current) ∧ ps = entries.map (·.previous) := by
  induction vs generalizing scores cs ps with
  | nil =>
    refine ⟨[], rfl, ?_, ?_, ?_⟩ <;> exact length_eq_zero_iff.1 (by assumption)
  | cons v vs ih =>
    obtain ⟨score, scores, rfl⟩ := exists_cons_of_length_eq_add_one hs
    obtain ⟨c, cs, rfl⟩ := exists_cons_of_length_eq_add_one hc
    obtain ⟨p, ps, rfl⟩ := exists_cons_of_length_eq_add_one hp
    obtain ⟨entries, rfl, rfl, rfl, rfl⟩ := ih scores cs ps (by simpa using hs) (by simpa using hc)
      (by simpa using hp)
    exact ⟨⟨v, score, c, p⟩ :: entries, rfl, rfl, rfl, rfl⟩

section Sums

variable (cfg : BeaconChainConfig) (epoch : Nat)

def Entry.targetInCurrent (e : Entry) : Bool :=
  !e.validator.slashed && isActiveValidator e.validator epoch &&
    e.current.getLsbD cfg.timelyTargetFlagIndex

def Entry.targetInPrevious (e : Entry) : Bool :=
  !e.validator.slashed && isActiveValidator e.validator (epoch - 1) &&
    e.previous.getLsbD cfg.timelyTargetFlagIndex

def weight (counts : Entry → Bool) (entries : List Entry) : Nat :=
  (entries.map fun e => if counts e then e.validator.effectiveBalance else 0).sum

def targets (entries : List Entry) : TargetBalances where
  active := weight (fun e => isActiveValidator e.validator epoch) entries
  prevTarget := weight (targetInPrevious cfg epoch) entries
  currentTarget := weight (targetInCurrent cfg epoch) entries

@[simp] theorem weight_nil (counts : Entry → Bool) : weight counts [] = 0 := rfl

@[simp] theorem weight_cons (counts : Entry → Bool) (e : Entry) (entries : List Entry) :
    weight counts (e :: entries) =
      (if counts e then e.validator.effectiveBalance else 0) + weight counts entries := by
  simp [weight]

theorem addIf_eq {counts : Bool} {total amount : Nat} (h : total + amount < 2 ^ 64) :
    addIf counts total amount = .ok (total + if counts then amount else 0) := by
  cases counts
  · rfl
  · exact checkedAdd_eq_ok.2 ⟨h, rfl⟩

theorem flag_eq (flags : BitVec 8) (position : Nat) :
    ((flags >>> position) &&& 1 == 1) = flags.getLsbD position := by
  rw [Bool.eq_iff_iff, beq_iff_eq]
  change (flags >>> position) &&& 1#8 = 1#8 ↔ _
  rw [BitVec.and_one_eq_setWidth_ofBool_getLsbD]
  simp only [BitVec.getLsbD_ushiftRight, Nat.add_zero]
  cases flags.getLsbD position <;> decide

/-- Active in the previous epoch, as `UnrealizedCheckpointBalances` puts it. -/
theorem isActiveValidator_pred (v : Validator) (hepoch : 0 < epoch) :
    (v.activationEpoch < epoch && epoch ≤ v.exitEpoch) = isActiveValidator v (epoch - 1) := by
  rw [isActiveValidator, Bool.eq_iff_iff]
  simp only [Bool.and_eq_true, decide_eq_true_eq]
  omega

theorem addUnrealized_eq (hepoch : 0 < epoch) (e : Entry) (bal : TargetBalances)
    (hactive : bal.active + e.validator.effectiveBalance < 2 ^ 64)
    (hprev : bal.prevTarget + e.validator.effectiveBalance < 2 ^ 64)
    (hcurr : bal.currentTarget + e.validator.effectiveBalance < 2 ^ 64) :
    addUnrealized cfg epoch bal (e.validator, e.current, e.previous) =
      .ok ⟨bal.active + weight (fun e => isActiveValidator e.validator epoch) [e],
        bal.prevTarget + weight (targetInPrevious cfg epoch) [e],
        bal.currentTarget + weight (targetInCurrent cfg epoch) [e]⟩ := by
  simp only [addUnrealized, addIf_eq hactive, addIf_eq hprev, addIf_eq hcurr, flag_eq,
    isActiveValidator_pred epoch e.validator hepoch, weight_cons, weight_nil, Nat.add_zero,
    targetInPrevious, targetInCurrent, ok_bind]
  by_cases hslashed : e.validator.slashed = true
  · simp only [hslashed, if_true, Bool.not_true, Bool.false_and, Bool.false_eq_true, if_false,
      Nat.add_zero]
    rfl
  · simp only [Bool.eq_false_iff.2 hslashed, Bool.false_eq_true, if_false, Bool.not_false,
      Bool.true_and]
    rfl

theorem ite_zero_le (n : Nat) (counts : Bool) : (if counts then n else 0) ≤ n := by
  cases counts <;> simp

theorem foldlM_addUnrealized (hepoch : 0 < epoch) (entries : List Entry) (bal : TargetBalances)
    (hactive : bal.active + weight (fun _ => true) entries < 2 ^ 64)
    (hprev : bal.prevTarget + weight (fun _ => true) entries < 2 ^ 64)
    (hcurr : bal.currentTarget + weight (fun _ => true) entries < 2 ^ 64) :
    (entries.map fun e => (e.validator, e.current, e.previous)).foldlM
        (addUnrealized cfg epoch) bal =
      .ok ⟨bal.active + (targets cfg epoch entries).active,
        bal.prevTarget + (targets cfg epoch entries).prevTarget,
        bal.currentTarget + (targets cfg epoch entries).currentTarget⟩ := by
  induction entries generalizing bal with
  | nil => rfl
  | cons e entries ih =>
    simp only [weight_cons, if_true] at hactive hprev hcurr
    have hone (counts : Entry → Bool) : weight counts [e] ≤ e.validator.effectiveBalance :=
      ite_zero_le _ (counts e)
    rw [map_cons, foldlM_cons, addUnrealized_eq cfg epoch hepoch e bal (by omega)
      (by omega) (by omega), ok_bind, ih]
    · simp only [targets, weight_cons, weight_nil, Nat.add_zero, Nat.add_assoc]
    · have := hone fun e => isActiveValidator e.validator epoch
      dsimp only
      omega
    · have := hone (targetInPrevious cfg epoch)
      dsimp only
      omega
    · have := hone (targetInCurrent cfg epoch)
      dsimp only
      omega

end Sums

section Precomputed

variable {st : Epoch.BeaconState} {entries : List Entry}

/-- The record that `InitializePrecomputeValidators` makes for an entry. -/
def record (cfg : BeaconChainConfig) (st : Epoch.BeaconState) (e : Entry) : PrecomputeValidator :=
  { currentEpochEffectiveBalance := e.validator.effectiveBalance
    inactivityScore := e.score
    isSlashed := e.validator.slashed
    isWithdrawableCurrentEpoch := e.validator.withdrawableEpoch ≤ Epoch.currentEpoch cfg st
    isActiveCurrentEpoch := isActiveValidator e.validator (Epoch.currentEpoch cfg st)
    isActivePrevEpoch := isActiveValidator e.validator (Epoch.prevEpoch cfg st) }

theorem precomputeLoop_eq (entries : List Entry) (st : Epoch.BeaconState)
    (cfg : BeaconChainConfig) (bal : Balance)
    (hactive : bal.activeCurrentEpoch + weight (fun _ => true) entries < 2 ^ 64)
    (hprev : bal.activePrevEpoch + weight (fun _ => true) entries < 2 ^ 64) :
    ∃ activePrev, precomputeLoop cfg st bal (entries.map fun e => (e.validator, e.score)) =
      .ok (entries.map (record cfg st), { bal with
        activeCurrentEpoch := bal.activeCurrentEpoch + weight
          (fun e => isActiveValidator e.validator (Epoch.currentEpoch cfg st)) entries
        activePrevEpoch := activePrev }) := by
  induction entries generalizing bal with
  | nil => exact ⟨bal.activePrevEpoch, rfl⟩
  | cons e entries ih =>
    simp only [weight_cons, if_true] at hactive hprev
    have hle := ite_zero_le e.validator.effectiveBalance
    have h₁ := hle (isActiveValidator e.validator (Epoch.currentEpoch cfg st))
    have h₂ := hle (isActiveValidator e.validator (Epoch.prevEpoch cfg st))
    obtain ⟨activePrev, hloop⟩ := ih { bal with
      activeCurrentEpoch := bal.activeCurrentEpoch +
        if isActiveValidator e.validator (Epoch.currentEpoch cfg st) then
          e.validator.effectiveBalance else 0
      activePrevEpoch := bal.activePrevEpoch +
        if isActiveValidator e.validator (Epoch.prevEpoch cfg st) then
          e.validator.effectiveBalance else 0 } (by dsimp only; omega) (by dsimp only; omega)
    refine ⟨activePrev, ?_⟩
    simp only [map_cons, precomputeLoop, precomputeValidator, addIf_eq
      (show bal.activeCurrentEpoch + e.validator.effectiveBalance < 2 ^ 64 by omega), addIf_eq
      (show bal.activePrevEpoch + e.validator.effectiveBalance < 2 ^ 64 by omega), ok_bind,
      pure_bind, hloop, weight_cons, Nat.add_assoc]
    rfl

theorem markAll_map {mark : BitVec 8 → PrecomputeValidator → Except Epoch.Error PrecomputeValidator}
    {flags : Entry → BitVec 8} {before after : Entry → PrecomputeValidator}
    (h : ∀ e, mark (flags e) (before e) = .ok (after e)) (entries : List Entry) :
    markAll mark (entries.map flags) (entries.map before) = .ok (entries.map after) := by
  induction entries with
  | nil => rfl
  | cons e entries ih =>
    simp only [map_cons, markAll, h, ih, ok_bind]
    rfl

/-- The additions of `UpdateBalance` do not wrap below the sum of all effective balances. -/
theorem foldl_updateBalance (entries : List Entry) (version : Version)
    (records : Entry → PrecomputeValidator)
    (hbalance : ∀ e, (records e).currentEpochEffectiveBalance = e.validator.effectiveBalance)
    (bal : Balance)
    (hcurr : bal.currentEpochTargetAttested + weight (fun _ => true) entries < 2 ^ 64)
    (hprev : bal.prevEpochTargetAttested + weight (fun _ => true) entries < 2 ^ 64) :
    ((entries.map records).foldl (updateBalance version) bal).activeCurrentEpoch =
        bal.activeCurrentEpoch ∧
      ((entries.map records).foldl (updateBalance version) bal).currentEpochTargetAttested =
        bal.currentEpochTargetAttested + weight (fun e => !(records e).isSlashed &&
          (records e).isCurrentEpochTargetAttester) entries ∧
      ((entries.map records).foldl (updateBalance version) bal).prevEpochTargetAttested =
        bal.prevEpochTargetAttested + weight (fun e => !(records e).isSlashed &&
          (records e).isPrevEpochTargetAttester) entries := by
  induction entries generalizing bal with
  | nil => exact ⟨rfl, rfl, rfl⟩
  | cons e entries ih =>
    simp only [weight_cons, if_true] at hcurr hprev
    have hgain (flag : Bool) {total : Nat} (h : total + e.validator.effectiveBalance < 2 ^ 64) :
        (if (!(records e).isSlashed && flag) = true then
          add64 total (records e).currentEpochEffectiveBalance else total) =
        total + if (!(records e).isSlashed && flag) = true then
          e.validator.effectiveBalance else 0 := by
      rw [hbalance, add64_of_lt h]
      split_ifs <;> rfl
    have hc : (updateBalance version bal (records e)).currentEpochTargetAttested = _ :=
      hgain (records e).isCurrentEpochTargetAttester (by omega)
    have hp : (updateBalance version bal (records e)).prevEpochTargetAttested = _ :=
      hgain (records e).isPrevEpochTargetAttester (by omega)
    have hle := ite_zero_le e.validator.effectiveBalance
    have h₁ := hle (!(records e).isSlashed && (records e).isCurrentEpochTargetAttester)
    have h₂ := hle (!(records e).isSlashed && (records e).isPrevEpochTargetAttester)
    obtain ⟨ha', hc', hp'⟩ := ih (updateBalance version bal (records e)) (by rw [hc]; omega)
      (by rw [hp]; omega)
    simp only [map_cons, foldl_cons, weight_cons]
    refine ⟨ha', ?_, ?_⟩
    · rw [hc', hc]
      omega
    · rw [hp', hp]
      omega

theorem hasValidatorFlag_ok {position : Nat} (h : position ≤ 7) (flags : BitVec 8) :
    hasValidatorFlag flags position = .ok (flags.getLsbD position) := if_neg (by omega)

/-- The record of an entry after its current epoch participation was marked. -/
def markedCurrent (cfg : ChainConfig) (st : Epoch.BeaconState) (e : Entry) : PrecomputeValidator :=
  let v := record cfg.toBeaconChainConfig st e
  { v with
    isCurrentEpochAttester := (e.current.getLsbD cfg.timelySourceFlagIndex ||
      e.current.getLsbD cfg.timelyTargetFlagIndex) && v.isActiveCurrentEpoch
    isCurrentEpochTargetAttester :=
      e.current.getLsbD cfg.timelyTargetFlagIndex && v.isActiveCurrentEpoch }

/-- The record of an entry after both participations were marked. -/
def marked (cfg : ChainConfig) (st : Epoch.BeaconState) (e : Entry) : PrecomputeValidator :=
  let v := markedCurrent cfg st e
  { v with
    isPrevEpochAttester := (e.previous.getLsbD cfg.timelySourceFlagIndex ||
      e.previous.getLsbD cfg.timelyTargetFlagIndex) && v.isActivePrevEpoch
    isPrevEpochSourceAttester :=
      e.previous.getLsbD cfg.timelySourceFlagIndex && v.isActivePrevEpoch
    isPrevEpochTargetAttester :=
      e.previous.getLsbD cfg.timelyTargetFlagIndex && v.isActivePrevEpoch
    isPrevEpochHeadAttester := e.previous.getLsbD cfg.timelyHeadFlagIndex && v.isActivePrevEpoch }

theorem markCurrent_record (e : Entry) :
    markCurrent cfg.toBeaconChainConfig e.current (record cfg.toBeaconChainConfig st e) =
      .ok (markedCurrent cfg st e) := by
  simp only [markCurrent, hasValidatorFlag_ok cfg.timelySourceFlagIndex_le,
    hasValidatorFlag_ok cfg.timelyTargetFlagIndex_le, ok_bind]
  rfl

theorem markPrevious_marked (e : Entry) :
    markPrevious cfg.toBeaconChainConfig e.previous (markedCurrent cfg st e) =
      .ok (marked cfg st e) := by
  simp only [markPrevious, hasValidatorFlag_ok cfg.timelySourceFlagIndex_le,
    hasValidatorFlag_ok cfg.timelyTargetFlagIndex_le,
    hasValidatorFlag_ok cfg.timelyHeadFlagIndex_le, ok_bind]
  rfl

theorem Aligned.initialize (h : Aligned st entries) (hsum : weight (fun _ => true) entries < 2 ^ 64) :
    ∃ activePrev, initializePrecomputeValidators cfg.toBeaconChainConfig st =
      .ok (entries.map (record cfg.toBeaconChainConfig st),
        { activeCurrentEpoch := weight (fun e => isActiveValidator e.validator
            (Epoch.currentEpoch cfg.toBeaconChainConfig st)) entries
          activePrevEpoch := activePrev }) := by
  obtain ⟨hvals, hscores, -, -⟩ := h
  obtain ⟨activePrev, hloop⟩ := precomputeLoop_eq entries st cfg.toBeaconChainConfig {}
    (by simpa using hsum) (by simpa using hsum)
  refine ⟨activePrev, ?_⟩
  rw [initializePrecomputeValidators, hvals, hscores, if_neg (by simp), zip_map', hloop]
  simp only [Nat.zero_add]
  rfl

theorem Aligned.participation (h : Aligned st entries) (bal : Balance) :
    processEpochParticipation cfg.toBeaconChainConfig st bal
        (entries.map (record cfg.toBeaconChainConfig st)) =
      .ok (entries.map (marked cfg st), ensureBalancesLowerBound cfg.toBeaconChainConfig
        ((entries.map (marked cfg st)).foldl (updateBalance st.version) bal)) := by
  obtain ⟨-, -, hcurr, hprev⟩ := h
  rw [processEpochParticipation, hcurr, hprev, markAll_map markCurrent_record, ok_bind,
    markAll_map markPrevious_marked, ok_bind]
  rfl

theorem precomputed_targets (cfg : ChainConfig) (haligned : Aligned st entries)
    (hepoch : 0 < Epoch.currentEpoch cfg.toBeaconChainConfig st)
    (hsum : weight (fun _ => true) entries < 2 ^ 64) :
    ∃ vals bal vals' bal',
      initializePrecomputeValidators cfg.toBeaconChainConfig st = .ok (vals, bal) ∧
      processEpochParticipation cfg.toBeaconChainConfig st bal vals = .ok (vals', bal') ∧
      (⟨bal'.activeCurrentEpoch, bal'.prevEpochTargetAttested,
        bal'.currentEpochTargetAttested⟩ : TargetBalances) =
      ensureLowerBound cfg.toBeaconChainConfig (targets cfg.toBeaconChainConfig
        (Epoch.currentEpoch cfg.toBeaconChainConfig st) entries) := by
  obtain ⟨activePrev, hinit⟩ := haligned.initialize hsum
  refine ⟨_, _, _, _, hinit, haligned.participation _, ?_⟩
  obtain ⟨ha, hc, hp⟩ := foldl_updateBalance entries st.version (marked cfg st)
    (fun _ => rfl) { activeCurrentEpoch := weight (fun e => isActiveValidator e.validator
      (Epoch.currentEpoch cfg.toBeaconChainConfig st)) entries, activePrevEpoch := activePrev }
    (by simpa using hsum) (by simpa using hsum)
  have hpred : Epoch.prevEpoch cfg.toBeaconChainConfig st =
      Epoch.currentEpoch cfg.toBeaconChainConfig st - 1 := if_neg (by omega)
  have hcurrent : (fun e => !(marked cfg st e).isSlashed &&
      (marked cfg st e).isCurrentEpochTargetAttester) = targetInCurrent
        cfg.toBeaconChainConfig (Epoch.currentEpoch cfg.toBeaconChainConfig st) := by
    funext e
    simp only [targetInCurrent, marked, markedCurrent, record, Bool.and_assoc]
    rw [Bool.and_comm (e.current.getLsbD _)]
  have hprevious : (fun e => !(marked cfg st e).isSlashed &&
      (marked cfg st e).isPrevEpochTargetAttester) = targetInPrevious
        cfg.toBeaconChainConfig (Epoch.currentEpoch cfg.toBeaconChainConfig st) := by
    funext e
    simp only [targetInPrevious, marked, markedCurrent, record, hpred, Bool.and_assoc]
    rw [Bool.and_comm (e.previous.getLsbD _)]
  simp only [ensureBalancesLowerBound, ensureLowerBound, targets, ha, hc, hp, Nat.zero_add,
    hcurrent, hprevious]

end Precomputed

section Prediction

variable {chain : Nat → Root} {st st' : BeaconState cfg Root}

/-- `st'` is `st` some empty slots later in the same epoch: at most the slot and block roots
since then differ. -/
structure Ahead (st st' : BeaconState cfg Root) : Prop where
  same : st' = { st with slot := st'.slot, blockRoots := st'.blockRoots }
  slot_le : st.slot ≤ st'.slot
  epoch : st'.currentEpoch = st.currentEpoch
  roots : ∀ slot < st.slot, st'.slot < slot + cfg.slotsPerHistoricalRoot →
    History.read st'.blockRoots slot = History.read st.blockRoots slot

theorem Ahead.refl (st : BeaconState cfg Root) : Ahead st st := ⟨rfl, le_rfl, rfl, fun _ _ _ => rfl⟩

theorem Ahead.processSlot (h : Ahead st st') (root : Root) : Ahead st (processSlot root st') where
  same := by
    rw [h.same]
    rfl
  slot_le := h.slot_le
  epoch := h.epoch
  roots := by
    intro slot hlt hnear
    have hle := h.slot_le
    change st'.slot < slot + cfg.slotsPerHistoricalRoot at hnear
    change History.read (History.write st'.blockRoots st'.slot root) slot = _
    rw [History.read_write_of_lt _ _ (by omega) hnear]
    exact h.roots slot hlt hnear

theorem slot_bounds (st : BeaconState cfg Root) :
    st.currentEpoch * cfg.slotsPerEpoch ≤ st.slot ∧
      st.slot < (st.currentEpoch + 1) * cfg.slotsPerEpoch := by
  have hdiv := div_add_mod st.slot cfg.slotsPerEpoch
  have hmod := mod_lt st.slot cfg.slotsPerEpoch_pos
  rw [← currentEpoch_eq, Nat.mul_comm] at hdiv
  rw [Nat.add_mul]
  omega

theorem Ahead.nextSlot (h : Ahead st st') (chain : Nat → Root)
    (hslot : st'.slot + 1 < (st.currentEpoch + 1) * cfg.slotsPerEpoch)
    (hfits : (st.currentEpoch + 1) * cfg.slotsPerEpoch ≤ 2 ^ 64)
    (processEpoch : BeaconState cfg Root → Except Error (BeaconState cfg Root)) :
    ∃ st₁, nextSlot chain processEpoch st' = .ok st₁ ∧ Ahead st st₁ ∧ st₁.slot = st'.slot + 1 := by
  have hbounds := (slot_bounds st').1
  rw [h.epoch] at hbounds
  have hadd : add64 st'.slot 1 = st'.slot + 1 := add64_of_lt (by omega)
  have hdiv : (st'.slot + 1) / cfg.slotsPerEpoch = st.currentEpoch :=
    Nat.div_eq_of_lt_le (by omega) hslot
  have hcan : canProcessEpoch (Justification.processSlot (chain st'.slot) st') = false := by
    have hmod := div_add_mod (st'.slot + 1) cfg.slotsPerEpoch
    rw [hdiv, Nat.mul_comm] at hmod
    change (add64 st'.slot 1 % cfg.slotsPerEpoch == 0) = false
    rw [hadd, beq_eq_false_iff_ne]
    omega
  have hrun := h.processSlot (chain st'.slot)
  refine ⟨{ Justification.processSlot (chain st'.slot) st' with slot := st'.slot + 1 },
    ?_, ⟨?_, ?_, hdiv, ?_⟩, rfl⟩
  · simp only [Justification.nextSlot, hcan, Bool.false_eq_true, if_false]
    exact congrArg Except.ok (by rw [← hadd]; rfl)
  · rw [h.same]
    rfl
  · exact h.slot_le.trans (le_succ _)
  · intro slot hlt hnear
    exact hrun.roots slot hlt ((lt_succ_self _).trans hnear)

/-- The roots that `computeCheckpoints` reads were stored before the slots passed. -/
theorem Ahead.blockRoot (h : Ahead st st') {epoch : Nat}
    (he : epoch = st.currentEpoch ∨ epoch + 1 = st.currentEpoch)
    (hstart : st.currentEpoch * cfg.slotsPerEpoch < st.slot) :
    blockRoot st' epoch = blockRoot st epoch := by
  have htwo := cfg.two_epochs_le
  have hle := h.slot_le
  have hend := (slot_bounds st').2
  rw [h.epoch, Nat.add_mul] at hend
  have hnear : epoch * cfg.slotsPerEpoch < st.slot ∧
      st'.slot < epoch * cfg.slotsPerEpoch + cfg.slotsPerHistoricalRoot := by
    rcases he with rfl | he
    · omega
    · rw [← he, Nat.add_mul] at hend hstart
      omega
  simp only [Justification.blockRoot, epochStart, safeMul64]
  split_ifs with hfits
  · simp only [blockRootAtSlot, Nat.mul_comm cfg.slotsPerEpoch epoch]
    split_ifs with hover h₁ h₂ h₂
    · rfl
    · rfl
    · rw [add64_of_lt (by omega)] at h₁
      omega
    · rw [add64_of_lt (by omega)] at h₂
      omega
    · rw [h.roots _ hnear.1 hnear.2]
  · rfl

theorem Ahead.computeCheckpoints (h : Ahead st st') (hepoch : 0 < st.currentEpoch)
    (hstart : st.currentEpoch * cfg.slotsPerEpoch < st.slot) (bits : BitVec 4) :
    computeCheckpoints st' bits = computeCheckpoints st bits := by
  have hprev : st'.prevEpoch = st.prevEpoch := by
    rw [prevEpoch_eq, prevEpoch_eq, ← currentEpoch_eq, ← currentEpoch_eq, h.epoch]
  have hprevEpoch := prevEpoch_succ hepoch
  have hjustified : st'.currentJustifiedCheckpoint = st.currentJustifiedCheckpoint := by
    rw [h.same]
  have hprevious : st'.previousJustifiedCheckpoint = st.previousJustifiedCheckpoint := by
    rw [h.same]
  have hfinalized : st'.finalizedCheckpoint = st.finalizedCheckpoint := by
    rw [h.same]
    rfl
  simp only [Justification.computeCheckpoints, computeJustified, computeFinalized, h.epoch, hprev,
    hjustified, hprevious, hfinalized, h.blockRoot (.inl rfl) hstart,
    h.blockRoot (.inr hprevEpoch) hstart]

theorem unrealizedCheckpointBalances_eq {entries : List Entry} (hversion : .altair ≤ st.version)
    (haligned : Aligned st.toBeaconState entries) (hepoch : 0 < st.currentEpoch)
    (hsum : weight (fun _ => true) entries < 2 ^ 64) :
    unrealizedCheckpointBalances st = .ok (ensureLowerBound cfg.toBeaconChainConfig
      (targets cfg.toBeaconChainConfig st.currentEpoch entries)) := by
  obtain ⟨hvals, -, hcurr, hprev⟩ := haligned
  have hphase : st.version ≠ .phase0 := by
    intro h
    rw [h] at hversion
    exact absurd hversion (by decide)
  have hloop := foldlM_addUnrealized cfg.toBeaconChainConfig st.currentEpoch hepoch entries {}
    (by simpa using hsum) (by simpa using hsum) (by simpa using hsum)
  simp only [Nat.zero_add] at hloop
  rw [unrealizedCheckpointBalances, if_neg hphase, hvals, hcurr, hprev, if_neg (by simp),
    zip_map', zip_map']
  dsimp only
  rw [hloop]
  rfl

def BeaconState.checkpoints (st : BeaconState cfg Root) : Checkpoint Root × Checkpoint Root :=
  (st.currentJustifiedCheckpoint, st.finalizedCheckpoint)

theorem weigh_checkpoints (st : BeaconState cfg Root) (bits : BitVec 4) :
    (weighJustificationAndFinalization st bits).map (·.checkpoints) =
      Justification.computeCheckpoints st bits := by
  unfold weighJustificationAndFinalization
  cases Justification.computeCheckpoints st bits <;> rfl

section

variable {entries : List Entry} (h : Ahead st st') (hversion : .altair ≤ st.version)
  (haligned : Aligned st.toBeaconState entries) (hepoch : genesisEpoch + 1 < st.currentEpoch)
  (hstart : st.currentEpoch * cfg.slotsPerEpoch < st.slot)
  (hsum : weight (fun _ => true) entries < 2 ^ 64)

include h hversion haligned hepoch hstart hsum

theorem processEpoch_checkpoints
    (hlast : st'.slot + 1 = (st.currentEpoch + 1) * cfg.slotsPerEpoch) :
    (processEpoch st').map (·.checkpoints) = unrealizedCheckpoints st := by
  have hpos : 0 < st.currentEpoch := by omega
  have hahead : Aligned st'.toBeaconState entries := by
    rw [h.same]
    exact haligned
  obtain ⟨vals, bal, vals', bal', hinit, hpart, htargets⟩ :=
    precomputed_targets cfg hahead (by rw [← h.epoch] at hpos; exact hpos) hsum
  rw [show Epoch.currentEpoch cfg.toBeaconChainConfig st'.toBeaconState = st.currentEpoch from
    h.epoch] at htargets
  have hbits : st'.justificationBits = st.justificationBits := by rw [h.same]
  have hprocess : processEpoch st' =
      processJustificationAndFinalizationPreCompute bal' st' := by
    simp only [processEpoch, hinit, hpart, Except.mapError, ok_bind]
  rw [hprocess, processJustification_unfold (by rw [h.epoch]; exact hlast), h.epoch,
    if_neg (by omega), weigh_checkpoints, h.computeCheckpoints hpos hstart, unrealizedCheckpoints,
    if_neg (by omega), unrealizedCheckpointBalances_eq hversion haligned hpos hsum, ok_bind,
    ← htargets]
  simp only [processJustificationBits, hbits]

theorem Ahead.predicted {n : Nat} (hfits : (st.currentEpoch + 1) * cfg.slotsPerEpoch ≤ 2 ^ 64)
    (hlast : st'.slot + (n + 1) = (st.currentEpoch + 1) * cfg.slotsPerEpoch) :
    (processSlots chain processEpoch (n + 1) st').map (·.checkpoints) =
      unrealizedCheckpoints st := by
  induction n generalizing st' with
  | zero =>
    have hcan : canProcessEpoch (Justification.processSlot (chain st'.slot) st') = true := by
      change (add64 st'.slot 1 % cfg.slotsPerEpoch == 0) = true
      have hzero : (st'.slot + 1) % cfg.slotsPerEpoch = 0 := by rw [hlast, mul_mod_left]
      rcases Nat.lt_or_ge (st'.slot + 1) (2 ^ 64) with hlt | hge
      · rw [add64_of_lt hlt, hzero]
        rfl
      · rw [show st'.slot + 1 = 2 ^ 64 by omega] at hzero
        rw [add64, uint64, show st'.slot + 1 = 2 ^ 64 by omega, mod_self, zero_mod]
        rfl
    rw [← processEpoch_checkpoints (h.processSlot (chain st'.slot)) hversion haligned hepoch hstart
      hsum hlast]
    simp only [processSlots, Justification.nextSlot, hcan, if_true]
    cases processEpoch (Justification.processSlot (chain st'.slot) st') <;> rfl
  | succ n ih =>
    obtain ⟨st₁, hstep, hahead, hslot⟩ := h.nextSlot chain (by omega) hfits processEpoch
    rw [processSlots, hstep, ok_bind]
    exact ih hahead (by omega)

end

/-- `UnrealizedCheckpoints` of an Altair state that is in neither of the first two epochs, nor at
the first slot of its epoch, is what the empty slots to the end of the epoch leave. -/
theorem unrealizedCheckpoints_predict_transition (st : BeaconState cfg Root) (chain : Nat → Root)
    (hversion : .altair ≤ st.version)
    (hscores : st.inactivityScores.length = st.validators.length)
    (hcurrent : st.currentEpochParticipation.length = st.validators.length)
    (hprevious : st.previousEpochParticipation.length = st.validators.length)
    (hepoch : genesisEpoch + 1 < st.currentEpoch) (hfirst : st.slot % cfg.slotsPerEpoch ≠ 0)
    (hfits : (st.currentEpoch + 1) * cfg.slotsPerEpoch ≤ 2 ^ 64)
    (hsum : 3 * (st.validators.map (·.effectiveBalance)).sum < 2 ^ 64) :
    unrealizedCheckpoints st =
      (processSlots chain processEpoch (cfg.slotsPerEpoch - st.slot % cfg.slotsPerEpoch) st).map
        (·.checkpoints) := by
  obtain ⟨entries, haligned⟩ := exists_entries st.validators st.inactivityScores
    st.currentEpochParticipation st.previousEpochParticipation hscores hcurrent hprevious
  have hweight : weight (fun _ => true) entries < 2 ^ 64 := by
    rw [haligned.1, map_map] at hsum
    simp only [weight, if_true]
    exact lt_of_le_of_lt (Nat.le_mul_of_pos_left _ (by norm_num)) hsum
  have hdiv := div_add_mod st.slot cfg.slotsPerEpoch
  have hmod := mod_lt st.slot cfg.slotsPerEpoch_pos
  rw [← currentEpoch_eq, Nat.mul_comm] at hdiv
  obtain ⟨n, hn⟩ : ∃ n, cfg.slotsPerEpoch - st.slot % cfg.slotsPerEpoch = n + 1 :=
    exists_eq_succ_of_ne_zero (by omega)
  rw [hn]
  refine ((Ahead.refl st).predicted hversion haligned hepoch (by omega) hweight hfits ?_).symm
  rw [Nat.add_mul]
  omega

/-- One validator of two voted for the target, in the third epoch of the short chain. -/
def shortState : BeaconState shortConfig Nat :=
  { shortGenesis with
    slot := 5
    validators := [{ effectiveBalance := 32000000000 }, { effectiveBalance := 16000000000 }]
    inactivityScores := [0, 0]
    previousEpochParticipation := [0, 0]
    currentEpochParticipation := [0b010, 0]
    blockRoots := #v[5, 2, 3, 4] }

/-- The third epoch will be justified, as its empty last slot confirms. -/
theorem unrealizedCheckpoints_predict_transition_short :
    unrealizedCheckpoints shortState = .ok (⟨2, 5⟩, ⟨0, 0⟩) ∧
      unrealizedCheckpoints shortState =
        (processSlots (fun _ => 6) processEpoch 1 shortState).map (·.checkpoints) :=
  ⟨by decide +kernel, unrealizedCheckpoints_predict_transition shortState (fun _ => 6)
    (by decide) rfl rfl rfl (by decide) (by decide) (by decide) (by decide)⟩

end Prediction

end LightChain.Justification

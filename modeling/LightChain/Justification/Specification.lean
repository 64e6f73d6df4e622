import LightChain.Justification.State
import LightChain.Library.Fallible

/-!
# The specification's justification rule

`Spec.processJustificationAndFinalization` is the rule of the beacon chain specification,
over unbounded numbers. The code decides from the shifted justification bits where the
specification decides from the balances. On runs from genesis the two agree
(`processSlots_follows_specification`): a bit that is still set from the epoch before
stands for the checkpoint that is already justified (`Inv.current_of_bit`).
-/
namespace LightChain.Justification
open Library Epoch

variable {cfg : ChainConfig} {Root : Type}

namespace Spec

def getBlockRoot (st : BeaconState cfg Root) (epoch : Nat) : Option Root :=
  let slot := epoch * cfg.slotsPerEpoch
  if slot < st.slot ∧ st.slot ≤ slot + cfg.slotsPerHistoricalRoot then
    some (History.read st.blockRoots slot)
  else none

/-- Justify an epoch that reached the quorum: its checkpoint, and its bit. -/
def justify (st : BeaconState cfg Root) (epoch position targetBalance totalActiveBalance : Nat)
    (acc : Checkpoint Root × BitVec 4) : Option (Checkpoint Root × BitVec 4) :=
  if totalActiveBalance * 2 ≤ targetBalance * 3 then do
    let root ← getBlockRoot st epoch
    return (⟨epoch, root⟩, acc.2 ||| BitVec.twoPow 4 position)
  else some acc

/-- The bits moved by one position, with a cleared first bit. -/
def shiftBits (bits : BitVec 4) : BitVec 4 :=
  BitVec.ofBoolListLE [false, bits.getLsbD 0, bits.getLsbD 1, bits.getLsbD 2]

def finalize (bits : BitVec 4) (currentEpoch : Nat) (oldPrev oldCurr finalized : Checkpoint Root) :
    Checkpoint Root :=
  let finalized := if bits.getLsbD 1 ∧ bits.getLsbD 2 ∧ bits.getLsbD 3 ∧
    oldPrev.epoch + 3 = currentEpoch then oldPrev else finalized
  let finalized := if bits.getLsbD 1 ∧ bits.getLsbD 2 ∧ oldPrev.epoch + 2 = currentEpoch
    then oldPrev else finalized
  let finalized := if bits.getLsbD 0 ∧ bits.getLsbD 1 ∧ bits.getLsbD 2 ∧
    oldCurr.epoch + 2 = currentEpoch then oldCurr else finalized
  if bits.getLsbD 0 ∧ bits.getLsbD 1 ∧ oldCurr.epoch + 1 = currentEpoch then oldCurr else finalized

def weighJustificationAndFinalization (st : BeaconState cfg Root)
    (totalActiveBalance previousTargetBalance currentTargetBalance : Nat) :
    Option (BeaconState cfg Root) := do
  let acc := (st.currentJustifiedCheckpoint, shiftBits st.justificationBits)
  let acc ← justify st st.prevEpoch 1 previousTargetBalance totalActiveBalance acc
  let (justified, bits) ← justify st st.currentEpoch 0 currentTargetBalance totalActiveBalance acc
  let finalized := finalize bits st.currentEpoch st.previousJustifiedCheckpoint
    st.currentJustifiedCheckpoint st.finalizedCheckpoint
  return { st with
    previousJustifiedCheckpoint := st.currentJustifiedCheckpoint
    currentJustifiedCheckpoint := justified
    justificationBits := bits
    finalizedCheckpointEpoch := finalized.epoch
    finalizedCheckpointRoot := finalized.root }

def processJustificationAndFinalization (bal : Balance) (st : BeaconState cfg Root) :
    Option (BeaconState cfg Root) :=
  if st.currentEpoch ≤ genesisEpoch + 1 then some st
  else weighJustificationAndFinalization st bal.activeCurrentEpoch bal.prevEpochTargetAttested
    bal.currentEpochTargetAttested

end Spec

open Spec

section Bits

def nextBits (bits : BitVec 4) (previous current : Bool) : BitVec 4 :=
  BitVec.ofBoolListLE [current, bits.getLsbD 0 || previous, bits.getLsbD 1, bits.getLsbD 2]

theorem nextBits_code : ∀ (bits : BitVec 4) (previous current : Bool),
    (let shifted := if previous then bits <<< 1 ||| 0b0010 else bits <<< 1
     if current then shifted ||| 0b0001 else shifted) = nextBits bits previous current := by
  decide

theorem nextBits_spec : ∀ (bits : BitVec 4) (previous current : Bool),
    (let shifted := if previous then shiftBits bits ||| BitVec.twoPow 4 1
       else shiftBits bits
     if current then shifted ||| BitVec.twoPow 4 0 else shifted) =
      nextBits bits previous current := by
  decide

@[simp] theorem nextBits_zero : ∀ (bits : BitVec 4) (previous current : Bool),
    (nextBits bits previous current).getLsbD 0 = current := by decide

@[simp] theorem nextBits_one : ∀ (bits : BitVec 4) (previous current : Bool),
    (nextBits bits previous current).getLsbD 1 = (bits.getLsbD 0 || previous) := by decide

theorem and_1110 : ∀ bits : BitVec 4, bits &&& 0b1110 = 0b1110 ↔
    bits.getLsbD 1 ∧ bits.getLsbD 2 ∧ bits.getLsbD 3 := by decide

theorem and_0110 : ∀ bits : BitVec 4, bits &&& 0b0110 = 0b0110 ↔
    bits.getLsbD 1 ∧ bits.getLsbD 2 := by decide

theorem and_0111 : ∀ bits : BitVec 4, bits &&& 0b0111 = 0b0111 ↔
    bits.getLsbD 0 ∧ bits.getLsbD 1 ∧ bits.getLsbD 2 := by decide

theorem and_0011 : ∀ bits : BitVec 4, bits &&& 0b0011 = 0b0011 ↔
    bits.getLsbD 0 ∧ bits.getLsbD 1 := by decide

end Bits

section Epochs

variable {st : BeaconState cfg Root}

theorem currentEpoch_eq : st.currentEpoch = st.slot / cfg.slotsPerEpoch := rfl

theorem prevEpoch_eq : st.prevEpoch = st.slot / cfg.slotsPerEpoch - 1 := by
  simp only [BeaconState.prevEpoch, Epoch.prevEpoch]
  change (if st.slot / cfg.slotsPerEpoch = 0 then 0 else st.slot / cfg.slotsPerEpoch - 1) = _
  split_ifs <;> omega

theorem prevEpoch_succ (h : 0 < st.currentEpoch) : st.prevEpoch + 1 = st.currentEpoch := by
  rw [prevEpoch_eq, ← currentEpoch_eq]
  omega

theorem slot_of_canProcessEpoch (hslot : st.slot + 1 < 2 ^ 64) (h : canProcessEpoch st = true) :
    st.slot + 1 = (st.currentEpoch + 1) * cfg.slotsPerEpoch := by
  have hmod : (st.slot + 1) % cfg.slotsPerEpoch = 0 := by
    simpa [canProcessEpoch, add64_of_lt hslot] using h
  have hdiv := Nat.div_add_mod (st.slot + 1) cfg.slotsPerEpoch
  have hsucc : (st.slot + 1) / cfg.slotsPerEpoch = st.slot / cfg.slotsPerEpoch + 1 :=
    Nat.succ_div_of_dvd (Nat.dvd_of_mod_eq_zero hmod)
  rw [currentEpoch_eq, ← hsucc, Nat.mul_comm]
  omega

end Epochs

/-- The state at the end of an epoch, after the block root of its last slot was stored. -/
structure AtEnd (chain : Nat → Root) (st : BeaconState cfg Root) : Prop where
  last : st.slot + 1 = (st.currentEpoch + 1) * cfg.slotsPerEpoch
  fits : st.slot + 1 < 2 ^ 64
  roots : History.Recalls st.blockRoots chain (st.slot + 1)

namespace AtEnd

variable {chain : Nat → Root} {st : BeaconState cfg Root} {epoch : Nat}

theorem start_bounds (h : AtEnd chain st)
    (he : epoch = st.currentEpoch ∨ epoch + 1 = st.currentEpoch) :
    epoch * cfg.slotsPerEpoch < st.slot ∧
      st.slot + 1 ≤ epoch * cfg.slotsPerEpoch + 2 * cfg.slotsPerEpoch := by
  have hlast := h.last
  have htwo := cfg.one_lt_slotsPerEpoch
  rcases he with rfl | he
  · rw [Nat.add_mul] at hlast
    omega
  · rw [← he, Nat.add_mul, Nat.add_mul] at hlast
    omega

theorem next (h : AtEnd chain st) {st' : BeaconState cfg Root} (hslot : st'.slot = st.slot + 1) :
    st'.currentEpoch = st.currentEpoch + 1 ∧ st'.prevEpoch = st.currentEpoch := by
  have hepoch : st'.slot / cfg.slotsPerEpoch = st.currentEpoch + 1 := by
    rw [hslot, h.last, Nat.mul_div_cancel _ cfg.slotsPerEpoch_pos]
  exact ⟨hepoch, by rw [prevEpoch_eq, hepoch, Nat.add_sub_cancel]⟩

theorem getBlockRoot (h : AtEnd chain st)
    (he : epoch = st.currentEpoch ∨ epoch + 1 = st.currentEpoch) :
    Spec.getBlockRoot st epoch = some (chain (epoch * cfg.slotsPerEpoch)) := by
  obtain ⟨hlt, hle⟩ := h.start_bounds he
  have htwo := cfg.two_epochs_le
  simp only [Spec.getBlockRoot]
  rw [if_pos (by omega), h.roots _ (by omega) (by omega)]

theorem blockRoot (h : AtEnd chain st)
    (he : epoch = st.currentEpoch ∨ epoch + 1 = st.currentEpoch) :
    blockRoot st epoch =
      if 2 ^ 64 - 1 - epoch * cfg.slotsPerEpoch < cfg.slotsPerHistoricalRoot then
        .error .slotOverflow
      else .ok (chain (epoch * cfg.slotsPerEpoch)) := by
  obtain ⟨hlt, hle⟩ := h.start_bounds he
  have htwo := cfg.two_epochs_le
  have hfits := h.fits
  have hstart : epochStart cfg.toBeaconChainConfig epoch = some (epoch * cfg.slotsPerEpoch) := by
    rw [epochStart, safeMul64_of_lt (by rw [Nat.mul_comm]; omega), Nat.mul_comm]
  simp only [Justification.blockRoot, hstart, blockRootAtSlot]
  split_ifs with hover hrange
  · rfl
  · rw [add64_of_lt (by omega)] at hrange
    omega
  · rw [h.roots _ (by omega) (by omega)]

end AtEnd

section Agreement

variable {chain : Nat → Root} {st st' : BeaconState cfg Root}

/-- The epochs of the checkpoints are ordered, and the first justification bit, which is clear
until the third epoch ends, stands for the checkpoint of the previous epoch. -/
structure Ordered (chain : Nat → Root) (st : BeaconState cfg Root) : Prop where
  finalized_le : st.finalizedCheckpointEpoch ≤ st.previousJustifiedCheckpoint.epoch
  previous_le : st.previousJustifiedCheckpoint.epoch ≤ st.currentJustifiedCheckpoint.epoch
  current_le : st.currentJustifiedCheckpoint.epoch ≤ st.prevEpoch
  current_of_bit : st.justificationBits.getLsbD 0 → st.currentJustifiedCheckpoint =
    ⟨st.prevEpoch, chain (st.prevEpoch * cfg.slotsPerEpoch)⟩
  no_bit : st.currentEpoch ≤ 2 → st.justificationBits.getLsbD 0 = false

/-- What holds between two slots. -/
structure Inv (chain : Nat → Root) (st : BeaconState cfg Root) : Prop extends Ordered chain st where
  roots : History.Recalls st.blockRoots chain st.slot

def nextJustified (chain : Nat → Root) (st : BeaconState cfg Root) (previous current : Bool) :
    Checkpoint Root :=
  if current then ⟨st.currentEpoch, chain (st.currentEpoch * cfg.slotsPerEpoch)⟩
  else if previous then ⟨st.prevEpoch, chain (st.prevEpoch * cfg.slotsPerEpoch)⟩
  else st.currentJustifiedCheckpoint

def transition (chain : Nat → Root) (st : BeaconState cfg Root) (previous current : Bool) :
    BeaconState cfg Root :=
  let bits := nextBits st.justificationBits previous current
  let finalized := finalize bits st.currentEpoch st.previousJustifiedCheckpoint
    st.currentJustifiedCheckpoint st.finalizedCheckpoint
  { st with
    previousJustifiedCheckpoint := st.currentJustifiedCheckpoint
    currentJustifiedCheckpoint := nextJustified chain st previous current
    justificationBits := bits
    finalizedCheckpointEpoch := finalized.epoch
    finalizedCheckpointRoot := finalized.root }

section

variable (h : Ordered chain st) (hend : AtEnd chain st)

include h hend

omit h in
theorem spec_eq_transition (hepoch : 0 < st.currentEpoch) (total previous current : Nat) :
    Spec.weighJustificationAndFinalization st total previous current =
      some (transition chain st (total * 2 ≤ previous * 3) (total * 2 ≤ current * 3)) := by
  have hprev : getBlockRoot st st.prevEpoch =
      some (chain (st.prevEpoch * cfg.slotsPerEpoch)) :=
    hend.getBlockRoot (.inr (prevEpoch_succ hepoch))
  have hcurr := hend.getBlockRoot (.inl rfl)
  have hbits := nextBits_spec st.justificationBits (total * 2 ≤ previous * 3)
    (total * 2 ≤ current * 3)
  by_cases hp : total * 2 ≤ previous * 3 <;> by_cases hc : total * 2 ≤ current * 3 <;>
    simp only [hp, hc, decide_true, decide_false, if_true, Bool.false_eq_true, if_false] at hbits <;>
    simp [Spec.weighJustificationAndFinalization, justify, hp, hc, hprev, hcurr, transition,
      nextJustified, hbits]

theorem computeFinalized_eq (bits : BitVec 4) :
    computeFinalized st bits = finalize bits st.currentEpoch st.previousJustifiedCheckpoint
      st.currentJustifiedCheckpoint st.finalizedCheckpoint := by
  obtain ⟨-, hprev, hle, -, -⟩ := h
  have hsmall : st.prevEpoch + 3 < 2 ^ 64 := by
    have hfits := hend.fits
    have hdiv := Nat.div_le_div_left cfg.one_lt_slotsPerEpoch (c := 2) (a := st.slot) (by omega)
    rw [prevEpoch_eq]
    omega
  have hadd {epoch : Nat} (he : epoch ≤ st.prevEpoch) {k : Nat} (hk : k ≤ 3) :
      add64 epoch k = epoch + k := add64_of_lt (by omega)
  simp only [computeFinalized, finalize, and_1110, and_0110, and_0111, and_0011, and_assoc,
    hadd hle (show 2 ≤ 3 by omega), hadd hle (show 1 ≤ 3 by omega),
    hadd (hprev.trans hle) (show 3 ≤ 3 by omega), hadd (hprev.trans hle) (show 2 ≤ 3 by omega)]

/-- The justified checkpoint of the code: a bit left from the previous epoch reads the root of
the checkpoint that is justified already. -/
theorem computeJustified_eq (hepoch : 0 < st.currentEpoch) (previous current : Bool)
    {justified : Checkpoint Root}
    (hok : computeJustified st (nextBits st.justificationBits previous current) = .ok justified) :
    justified = nextJustified chain st previous current := by
  have hprevEpoch := prevEpoch_succ hepoch
  have hle := h.current_le
  simp only [computeJustified, nextBits_zero, nextBits_one, hend.blockRoot (.inl rfl),
    hend.blockRoot (.inr hprevEpoch)] at hok
  cases current with
  | true =>
    rw [if_pos ⟨rfl, by omega⟩] at hok
    split_ifs at hok <;> cases hok
    rfl
  | false =>
    simp only [Bool.false_eq_true, false_and, if_false, hle, and_true] at hok
    cases hbit : st.justificationBits.getLsbD 0 with
    | true =>
      rw [hbit, Bool.true_or, if_pos rfl] at hok
      split_ifs at hok <;> cases hok
      cases previous
      · exact (h.current_of_bit hbit).symm
      · rfl
    | false =>
      rw [hbit, Bool.false_or] at hok
      cases previous
      · cases hok
        rfl
      · rw [if_pos rfl] at hok
        split_ifs at hok <;> cases hok
        rfl

theorem weigh_eq_transition (hepoch : 0 < st.currentEpoch) (previous current : Bool)
    (hok : weighJustificationAndFinalization st
      (nextBits st.justificationBits previous current) = .ok st') :
    st' = transition chain st previous current := by
  obtain ⟨⟨justified, finalized⟩, hcheckpoints, hst⟩ := bind_eq_ok.1 hok
  obtain ⟨_, hjustified, hpair⟩ := bind_eq_ok.1 hcheckpoints
  cases hpair
  cases hst
  rw [computeJustified_eq h hend hepoch previous current hjustified, computeFinalized_eq h hend]
  rfl

omit h in
/-- The code reads at most one block root, which fails in the last slots of the range only. -/
theorem weigh_succeeds (hepoch : 0 < st.currentEpoch)
    (hroom : st.slot + cfg.slotsPerHistoricalRoot < 2 ^ 64) (bits : BitVec 4) :
    ∃ st', weighJustificationAndFinalization st bits = .ok st' := by
  have hprevEpoch := prevEpoch_succ hepoch
  have hread {epoch : Nat} (he : epoch = st.currentEpoch ∨ epoch + 1 = st.currentEpoch) :
      blockRoot st epoch = .ok (chain (epoch * cfg.slotsPerEpoch)) := by
    have := hend.start_bounds he
    rw [hend.blockRoot he, if_neg (by omega)]
  have hjustified : ∃ justified, computeJustified st bits = .ok justified := by
    simp only [computeJustified, hread (.inl rfl), hread (.inr hprevEpoch)]
    split_ifs
    · exact ⟨_, rfl⟩
    · exact ⟨_, rfl⟩
    · exact ⟨_, rfl⟩
  obtain ⟨justified, hj⟩ := hjustified
  simp only [weighJustificationAndFinalization, computeCheckpoints, hj]
  exact ⟨_, rfl⟩

theorem Ordered.transition (hepoch : 1 < st.currentEpoch) (previous current : Bool) :
    Ordered chain { transition chain st previous current with slot := st.slot + 1 } := by
  have hnext : ∀ st' : BeaconState cfg Root, st'.slot = st.slot + 1 →
      st'.prevEpoch = st.currentEpoch := fun st' hslot => (hend.next hslot).2
  have hle : st.currentJustifiedCheckpoint.epoch ≤ st.currentEpoch := by
    have := h.current_le
    rw [prevEpoch_eq, ← currentEpoch_eq] at this
    omega
  refine ⟨?_, ?_, ?_, ?_, ?_⟩
  · have hfinalized : st.finalizedCheckpoint.epoch ≤ _ := h.finalized_le
    have hprev := h.previous_le
    change (finalize _ _ _ _ _).epoch ≤ st.currentJustifiedCheckpoint.epoch
    unfold finalize
    grind
  · have hprev := h.current_le
    simp only [Justification.transition, nextJustified]
    split_ifs
    · exact hle
    · exact hprev
    · exact le_rfl
  · rw [hnext _ rfl]
    simp only [Justification.transition, nextJustified]
    split_ifs
    · exact le_rfl
    · simp only [prevEpoch_eq, ← currentEpoch_eq]
      omega
    · exact hle
  · intro hbit
    rw [hnext _ rfl]
    have hcurrent : current = true :=
      (nextBits_zero st.justificationBits previous current).symm.trans hbit
    simp [Justification.transition, nextJustified, hcurrent]
  · intro hfirst
    rw [(hend.next rfl).1] at hfirst
    omega

theorem Ordered.skip (hepoch : st.currentEpoch ≤ 1) :
    Ordered chain { st with slot := st.slot + 1 } := by
  have hbit : st.justificationBits.getLsbD 0 = false := h.no_bit (by omega)
  refine ⟨h.finalized_le, h.previous_le, h.current_le.trans ?_, fun hset => ?_, fun _ => hbit⟩
  · have hnext : ({ st with slot := st.slot + 1 } : BeaconState cfg Root).prevEpoch =
        st.currentEpoch := (hend.next rfl).2
    rw [hnext, prevEpoch_eq, ← currentEpoch_eq]
    omega
  · exact absurd (hbit.symm.trans hset) Bool.false_ne_true

end

end Agreement

section Runs

variable {chain : Nat → Root} {st st' : BeaconState cfg Root} {bal : Balance}

/-- The balances that justification compares are small enough to be multiplied by three. -/
def Bounded (bal : Balance) : Prop :=
  3 * bal.activeCurrentEpoch < 2 ^ 64 ∧ 3 * bal.prevEpochTargetAttested < 2 ^ 64 ∧
    3 * bal.currentEpochTargetAttested < 2 ^ 64

theorem hasQuorum_eq {target total : Nat} (htarget : 3 * target < 2 ^ 64)
    (htotal : 3 * total < 2 ^ 64) : hasQuorum target total = (total * 2 ≤ target * 3 : Bool) := by
  simp only [hasQuorum, mul64_of_lt htarget, mul64_of_lt (show 2 * total < 2 ^ 64 by omega),
    Nat.mul_comm]

theorem processJustificationBits_eq (st : BeaconState cfg Root) (hbal : Bounded bal) :
    processJustificationBits st bal.activeCurrentEpoch bal.prevEpochTargetAttested
      bal.currentEpochTargetAttested = nextBits st.justificationBits
        (bal.activeCurrentEpoch * 2 ≤ bal.prevEpochTargetAttested * 3)
        (bal.activeCurrentEpoch * 2 ≤ bal.currentEpochTargetAttested * 3) := by
  rw [processJustificationBits, hasQuorum_eq hbal.2.1 hbal.1, hasQuorum_eq hbal.2.2 hbal.1]
  exact nextBits_code _ _ _

/-- Both rules leave the first two epochs alone: the code compares slots, the specification
epochs. -/
theorem processJustification_unfold
    (hlast : st.slot + 1 = (st.currentEpoch + 1) * cfg.slotsPerEpoch) :
    processJustificationAndFinalizationPreCompute bal st =
      if st.currentEpoch ≤ genesisEpoch + 1 then .ok st
      else weighJustificationAndFinalization st (processJustificationBits st
        bal.activeCurrentEpoch bal.prevEpochTargetAttested bal.currentEpochTargetAttested) := by
  have htwo := cfg.one_lt_slotsPerEpoch
  have hfits := cfg.two_epochs_le.trans_lt cfg.slotsPerHistoricalRoot_lt
  have hstart : epochStart cfg.toBeaconChainConfig 2 = some (cfg.slotsPerEpoch * 2) :=
    safeMul64_of_lt (by omega)
  simp only [processJustificationAndFinalizationPreCompute, hstart]
  congr 1
  rw [eq_iff_iff]
  constructor
  · intro hle
    by_contra hlt
    have : 3 * cfg.slotsPerEpoch ≤ (st.currentEpoch + 1) * cfg.slotsPerEpoch :=
      Nat.mul_le_mul_right _ (by unfold genesisEpoch at hlt; omega)
    omega
  · intro hle
    have : (st.currentEpoch + 1) * cfg.slotsPerEpoch ≤ 2 * cfg.slotsPerEpoch :=
      Nat.mul_le_mul_right _ (by unfold genesisEpoch at hle; omega)
    omega

/-- At the end of an epoch the code follows the specification, and keeps the order. -/
theorem epoch_step (h : Ordered chain st) (hend : AtEnd chain st) (hbal : Bounded bal)
    (hok : processJustificationAndFinalizationPreCompute bal st = .ok st') :
    processJustificationAndFinalization bal st = some st' ∧
      Ordered chain { st' with slot := st.slot + 1 } ∧ st'.slot = st.slot ∧
      st'.blockRoots = st.blockRoots := by
  rw [processJustification_unfold hend.last] at hok
  unfold processJustificationAndFinalization
  split_ifs at hok ⊢ with hfirst
  · cases hok
    exact ⟨rfl, h.skip hend hfirst, rfl, rfl⟩
  · unfold genesisEpoch at hfirst
    rw [processJustificationBits_eq st hbal] at hok
    have hepoch : 0 < st.currentEpoch := by omega
    rw [spec_eq_transition hend hepoch, weigh_eq_transition h hend hepoch _ _ hok]
    exact ⟨rfl, h.transition hend (by omega) _ _, rfl, rfl⟩

theorem Ordered.processSlot (h : Ordered chain st) (root : Root) :
    Ordered chain (processSlot root st) :=
  ⟨h.finalized_le, h.previous_le, h.current_le, h.current_of_bit, h.no_bit⟩

theorem atEnd_processSlot (h : Inv chain st) (hslot : st.slot + 1 < 2 ^ 64)
    (hcan : canProcessEpoch (processSlot (chain st.slot) st) = true) :
    AtEnd chain (processSlot (chain st.slot) st) :=
  ⟨slot_of_canProcessEpoch hslot hcan, hslot, h.roots.write⟩

theorem Ordered.wait (h : Ordered chain st) (hslot : st.slot + 1 < 2 ^ 64)
    (hcan : canProcessEpoch st = false) : Ordered chain { st with slot := st.slot + 1 } := by
  have hsame : (st.slot + 1) / cfg.slotsPerEpoch = st.slot / cfg.slotsPerEpoch := by
    apply Nat.succ_div_of_not_dvd
    intro hdvd
    simp [canProcessEpoch, add64_of_lt hslot, Nat.mod_eq_zero_of_dvd hdvd] at hcan
  have hprev : ({ st with slot := st.slot + 1 } : BeaconState cfg Root).prevEpoch =
      st.prevEpoch := by
    rw [prevEpoch_eq, prevEpoch_eq, hsame]
  refine ⟨h.finalized_le, h.previous_le, ?_, fun hbit => ?_, fun hfirst => h.no_bit ?_⟩
  · rw [hprev]
    exact h.current_le
  · rw [hprev]
    exact h.current_of_bit hbit
  · exact (currentEpoch_eq.trans hsame.symm).trans_le hfirst

theorem slot_step (h : Inv chain st) (hslot : st.slot + 1 < 2 ^ 64) (hbal : Bounded bal)
    (hok : nextSlot chain (processJustificationAndFinalizationPreCompute bal) st = .ok st') :
    nextSlot chain (processJustificationAndFinalization bal) st = some st' ∧
      Inv chain st' ∧ st'.slot = st.slot + 1 := by
  unfold nextSlot at hok ⊢
  obtain ⟨st₁, hepoch, hst'⟩ := bind_eq_ok.1 hok
  cases hst'
  cases hcan : canProcessEpoch (processSlot (chain st.slot) st) with
  | true =>
    rw [hcan, if_pos rfl] at hepoch
    obtain ⟨hspec, hordered, hs, hroots⟩ :=
      epoch_step (h.toOrdered.processSlot _) (atEnd_processSlot h hslot hcan) hbal hepoch
    have hadd : add64 st₁.slot 1 = st.slot + 1 := by rw [hs]; exact add64_of_lt hslot
    refine ⟨?_, ⟨?_, ?_⟩, hadd⟩
    · simp only [hcan, if_true, hspec]
      rfl
    · rw [hadd]
      exact hordered
    · rw [hadd]
      change History.Recalls st₁.blockRoots chain (st.slot + 1)
      rw [hroots]
      exact h.roots.write
  | false =>
    rw [hcan, if_neg Bool.false_ne_true] at hepoch
    cases hepoch
    have hadd : add64 (processSlot (chain st.slot) st).slot 1 = st.slot + 1 := add64_of_lt hslot
    rw [hadd]
    refine ⟨?_, ⟨(h.toOrdered.processSlot _).wait hslot hcan, h.roots.write⟩, rfl⟩
    simp only [hcan, Bool.false_eq_true, if_false]
    exact congrArg some (by rw [← hadd])

theorem slot_succeeds (bal : Balance) (h : Inv chain st) (hslot : st.slot + 1 < 2 ^ 64)
    (hroom : st.slot + cfg.slotsPerHistoricalRoot < 2 ^ 64) :
    ∃ st', nextSlot chain (processJustificationAndFinalizationPreCompute bal) st = .ok st' := by
  unfold nextSlot
  cases hcan : canProcessEpoch (processSlot (chain st.slot) st) with
  | true =>
    have hend := atEnd_processSlot h hslot hcan
    have hsome : ∃ st', processJustificationAndFinalizationPreCompute bal
        (processSlot (chain st.slot) st) = .ok st' := by
      rw [processJustification_unfold hend.last]
      split_ifs with hfirst
      · exact ⟨_, rfl⟩
      · exact weigh_succeeds hend (by omega) hroom _
    obtain ⟨st₁, hst₁⟩ := hsome
    simp only [hcan, if_true, hst₁]
    exact ⟨_, rfl⟩
  | false =>
    simp only [hcan, Bool.false_eq_true, if_false]
    exact ⟨_, rfl⟩

/-- A genesis state, before its first slot: no epoch is justified but the first. -/
structure IsGenesis (st : BeaconState cfg Root) : Prop where
  slot : st.slot = 0
  bits : st.justificationBits = 0
  previous : st.previousJustifiedCheckpoint.epoch = 0
  current : st.currentJustifiedCheckpoint.epoch = 0
  finalized : st.finalizedCheckpointEpoch = 0

theorem IsGenesis.inv (h : IsGenesis st) (chain : Nat → Root) : Inv chain st where
  finalized_le := by rw [h.finalized]; exact Nat.zero_le _
  previous_le := by rw [h.previous]; exact Nat.zero_le _
  current_le := by rw [h.current]; exact Nat.zero_le _
  current_of_bit := by simp [h.bits]
  no_bit := by simp [h.bits]
  roots := by rw [h.slot]; exact fun _ hy => absurd hy (Nat.not_lt_zero _)

/-- The balances that each epoch ends with decide the transition there. -/
def codeRun (chain : Nat → Root) (bals : Nat → Balance) :
    Nat → BeaconState cfg Root → Except Error (BeaconState cfg Root) :=
  processSlots chain fun st =>
    processJustificationAndFinalizationPreCompute (bals st.currentEpoch) st

def specRun (chain : Nat → Root) (bals : Nat → Balance) :
    Nat → BeaconState cfg Root → Option (BeaconState cfg Root) :=
  processSlots chain fun st => processJustificationAndFinalization (bals st.currentEpoch) st

variable {bals : Nat → Balance}

theorem codeRun_spec (hbal : ∀ epoch, Bounded (bals epoch)) {n : Nat} (h : Inv chain st)
    (hn : st.slot + n < 2 ^ 64) (hok : codeRun chain bals n st = .ok st') :
    specRun chain bals n st = some st' ∧ Inv chain st' := by
  induction n generalizing st with
  | zero =>
    cases hok
    exact ⟨rfl, h⟩
  | succ n ih =>
    obtain ⟨st₁, hstep, hrest⟩ := bind_eq_ok.1 hok
    obtain ⟨hspec, hinv, hslot⟩ := slot_step h (by omega) (hbal st.currentEpoch) hstep
    obtain ⟨hrun, hinv'⟩ := ih hinv (by omega) hrest
    exact ⟨Option.bind_eq_some_iff.2 ⟨st₁, hspec, hrun⟩, hinv'⟩

theorem codeRun_succeeds (hbal : ∀ epoch, Bounded (bals epoch)) {n : Nat} (h : Inv chain st)
    (hn : st.slot + n < 2 ^ 64) (hroom : st.slot + n + cfg.slotsPerHistoricalRoot ≤ 2 ^ 64) :
    ∃ st', codeRun chain bals n st = .ok st' := by
  induction n generalizing st with
  | zero => exact ⟨st, rfl⟩
  | succ n ih =>
    obtain ⟨st₁, hstep⟩ := slot_succeeds (bals st.currentEpoch) h (by omega) (by omega)
    obtain ⟨-, hinv, hslot⟩ := slot_step h (by omega) (hbal st.currentEpoch) hstep
    obtain ⟨st', hst'⟩ := ih hinv (by omega) (by omega)
    exact ⟨st', bind_eq_ok.2 ⟨st₁, hstep, hst'⟩⟩

/-- From genesis, whatever the block roots and the balances of the epochs are, the code reaches
the state of the specification, with the epochs of its checkpoints in order. It fails at most
where a block root's slot has no room for `SlotsPerHistoricalRoot` more in `uint64`. -/
theorem processSlots_follows_specification (hgenesis : IsGenesis st) (chain : Nat → Root)
    (bals : Nat → Balance) (hbal : ∀ epoch, Bounded (bals epoch)) (n : Nat) (hn : n < 2 ^ 64) :
    (∀ st', codeRun chain bals n st = .ok st' → specRun chain bals n st = some st' ∧
      st'.finalizedCheckpoint.epoch ≤ st'.previousJustifiedCheckpoint.epoch ∧
      st'.previousJustifiedCheckpoint.epoch ≤ st'.currentJustifiedCheckpoint.epoch) ∧
    (n + cfg.slotsPerHistoricalRoot ≤ 2 ^ 64 → ∃ st', codeRun chain bals n st = .ok st') := by
  have hinv := hgenesis.inv chain
  have hslot := hgenesis.slot
  constructor
  · intro st' hok
    obtain ⟨hspec, hinv'⟩ := codeRun_spec hbal hinv (by omega) hok
    exact ⟨hspec, hinv'.finalized_le, hinv'.previous_le⟩
  · intro hroom
    exact codeRun_succeeds hbal hinv (by omega) (by omega)

/-- Epochs of two slots, and block roots of two epochs. -/
def shortConfig : ChainConfig := { slotsPerEpoch := 2, slotsPerHistoricalRoot := 4 }

def shortGenesis : BeaconState shortConfig Nat where
  version := .altair
  slot := 0
  validators := []
  balances := []
  inactivityScores := []
  previousEpochParticipation := []
  currentEpochParticipation := []
  finalizedCheckpointEpoch := 0
  earliestExitEpoch := 0
  exitBalanceToConsume := 0
  previousJustifiedCheckpoint := ⟨0, 0⟩
  currentJustifiedCheckpoint := ⟨0, 0⟩
  finalizedCheckpointRoot := 0
  justificationBits := 0
  blockRoots := Vector.replicate _ 0

theorem isGenesis_shortGenesis : IsGenesis shortGenesis := ⟨rfl, rfl, rfl, rfl, rfl⟩

def fullAttendance : Balance :=
  { activeCurrentEpoch := 3, prevEpochTargetAttested := 3, currentEpochTargetAttested := 3 }

/-- Full attendance on the short chain: after five epochs the fourth is finalized. -/
theorem processSlots_follows_specification_short :
    IsGenesis shortGenesis ∧
      (codeRun (fun slot => slot + 1) (fun _ => fullAttendance) 10 shortGenesis).toOption.map
        (·.finalizedCheckpoint) = some ⟨3, 7⟩ ∧
      ∃ st', specRun (fun slot => slot + 1) (fun _ => fullAttendance) 10 shortGenesis =
        some st' := by
  refine ⟨isGenesis_shortGenesis, by decide +kernel, ?_⟩
  obtain ⟨hspec, hok⟩ := processSlots_follows_specification isGenesis_shortGenesis
    (fun slot => slot + 1) (fun _ => fullAttendance)
    (fun _ => by unfold Bounded fullAttendance; norm_num) 10 (by norm_num)
  obtain ⟨st', hst'⟩ := hok (by unfold shortConfig; norm_num)
  exact ⟨st', (hspec st' hst').1⟩

end Runs

end LightChain.Justification

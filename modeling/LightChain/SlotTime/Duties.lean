import LightChain.SlotTime.Clock
import LightChain.Library.Fallible

/-!
# Deadlines within a slot

When attestations, aggregates, sync committee messages and contributions are due, and
`ValidateDutyOffsets`. The validation looks at the attestation and aggregation deadlines of each
scheduled slot length, in the first epoch and in the first Gloas epoch. What it leaves open are
the other two deadlines when only one offset is set, and offsets that wrap below zero.
-/
namespace LightChain.SlotTime
open Library

def basisPoints : Nat := 10000

section Duties

variable (cfg : BeaconChainConfig)

def toEpoch (slot : Nat) : Nat := slot / cfg.slotsPerEpoch

variable (slotDuration : Int)

def slotFraction (bp : Nat) : Int :=
  let ms := mul64 bp (int64ToUint64 (slotDuration.tdiv millisecond)) / basisPoints
  int64 (int64 ms * millisecond)

def dutyDue (epoch overrideMs bp bpGloas : Nat) : Int :=
  if 0 < overrideMs then int64 (int64 overrideMs * millisecond)
  else slotFraction slotDuration (if cfg.gloasForkEpoch ≤ epoch then bpGloas else bp)

def attestationDue (epoch : Nat) : Int :=
  dutyDue cfg slotDuration epoch cfg.attestationOffsetMs cfg.attestationDueBPS
    cfg.attestationDueBPSGloas

def aggregationDue (epoch : Nat) : Int :=
  dutyDue cfg slotDuration epoch cfg.aggregationOffsetMs cfg.aggregateDueBPS
    cfg.aggregateDueBPSGloas

def syncMessageDue (epoch : Nat) : Int :=
  dutyDue cfg slotDuration epoch cfg.attestationOffsetMs cfg.syncMessageDueBPS
    cfg.syncMessageDueBPSGloas

def contributionDue (epoch : Nat) : Int :=
  dutyDue cfg slotDuration epoch cfg.aggregationOffsetMs cfg.contributionDueBPS
    cfg.contributionDueBPSGloas

def attestationDueAt (slot : Nat) : Int :=
  attestationDue cfg (slotDurationAt cfg slot) (toEpoch cfg slot)

def aggregationDueAt (slot : Nat) : Int :=
  aggregationDue cfg (slotDurationAt cfg slot) (toEpoch cfg slot)

def syncMessageDueAt (slot : Nat) : Int :=
  syncMessageDue cfg (slotDurationAt cfg slot) (toEpoch cfg slot)

def contributionDueAt (slot : Nat) : Int :=
  contributionDue cfg (slotDurationAt cfg slot) (toEpoch cfg slot)

/-- The errors of `ValidateDutyOffsets` with the values in their messages: the attestation or the
aggregation offset is not less than the slot duration, or attestations are not due before
aggregates. -/
inductive DutyOffsetError where
  | attestation (offsetMs durationMillis startSlot : Nat)
  | aggregation (offsetMs durationMillis startSlot : Nat)
  | order (att agg : Int) (startSlot epoch : Nat)
deriving DecidableEq, Repr

def checkDue (seg : SlotTimeSegment) (epoch : Nat) : Except DutyOffsetError Unit :=
  let slotDuration := segmentDuration seg
  let att := attestationDue cfg slotDuration epoch
  let agg := aggregationDue cfg slotDuration epoch
  if slotDuration ≤ att then
    .error (.attestation cfg.attestationOffsetMs seg.durationMillis seg.startSlot)
  else if slotDuration ≤ agg then
    .error (.aggregation cfg.aggregationOffsetMs seg.durationMillis seg.startSlot)
  else if agg ≤ att then .error (.order att agg seg.startSlot epoch)
  else .ok ()

def checkedEpochs : List Nat :=
  if cfg.gloasForkEpoch ≠ farFutureEpoch ∧ 0 < cfg.gloasForkEpoch then [0, cfg.gloasForkEpoch]
  else [0]

def validateDutyOffsets : Except DutyOffsetError Unit :=
  if cfg.attestationOffsetMs = 0 ∧ cfg.aggregationOffsetMs = 0 then .ok ()
  else (slotTimeSchedule cfg).forM fun seg => (checkedEpochs cfg).forM (checkDue cfg seg)

/-- The deadlines of a slot come in order and within the slot. -/
structure Usable (slot : Nat) : Prop where
  attestation_nonneg : 0 ≤ attestationDueAt cfg slot
  syncMessage_nonneg : 0 ≤ syncMessageDueAt cfg slot
  attestation_aggregation : attestationDueAt cfg slot < aggregationDueAt cfg slot
  attestation_contribution : attestationDueAt cfg slot < contributionDueAt cfg slot
  syncMessage_aggregation : syncMessageDueAt cfg slot < aggregationDueAt cfg slot
  syncMessage_contribution : syncMessageDueAt cfg slot < contributionDueAt cfg slot
  attestation_lt : attestationDueAt cfg slot < slotDurationAt cfg slot
  aggregation_lt : aggregationDueAt cfg slot < slotDurationAt cfg slot
  syncMessage_lt : syncMessageDueAt cfg slot < slotDurationAt cfg slot
  contribution_lt : contributionDueAt cfg slot < slotDurationAt cfg slot

/-- What the validation does not look at. The last epoch of all is reached only by slots that
last an epoch each. -/
structure Unchecked (slot : Nat) : Prop where
  attestation : 0 ≤ attestationDueAt cfg slot
  contribution : cfg.aggregationOffsetMs = 0 →
    attestationDueAt cfg slot < contributionDueAt cfg slot ∧
      contributionDueAt cfg slot < slotDurationAt cfg slot
  syncMessage : cfg.attestationOffsetMs = 0 →
    0 ≤ syncMessageDueAt cfg slot ∧ syncMessageDueAt cfg slot < aggregationDueAt cfg slot
  lastEpoch : cfg.gloasForkEpoch = farFutureEpoch → toEpoch cfg slot = farFutureEpoch →
    attestationDueAt cfg slot < aggregationDueAt cfg slot ∧
      aggregationDueAt cfg slot < slotDurationAt cfg slot

end Duties

section Validated

variable {cfg : BeaconChainConfig}

theorem dutyDue_congr {slotDuration : Int} {epoch epoch' overrideMs bp bpGloas : Nat}
    (h : cfg.gloasForkEpoch ≤ epoch ↔ cfg.gloasForkEpoch ≤ epoch') :
    dutyDue cfg slotDuration epoch overrideMs bp bpGloas =
      dutyDue cfg slotDuration epoch' overrideMs bp bpGloas := by
  unfold dutyDue
  simp only [h]

theorem dutyDue_of_pos {slotDuration : Int} {epoch overrideMs bp bpGloas bp' bpGloas' : Nat}
    (h : 0 < overrideMs) : dutyDue cfg slotDuration epoch overrideMs bp bpGloas =
      dutyDue cfg slotDuration epoch overrideMs bp' bpGloas' := by
  unfold dutyDue
  rw [if_pos h, if_pos h]

/-- Every epoch but the last of all has the deadlines of an epoch that is checked. -/
theorem exists_checkedEpoch {epoch : Nat} (hepoch : epoch ≤ farFutureEpoch)
    (hlast : ¬(cfg.gloasForkEpoch = farFutureEpoch ∧ epoch = farFutureEpoch)) :
    ∃ e ∈ checkedEpochs cfg, cfg.gloasForkEpoch ≤ epoch ↔ cfg.gloasForkEpoch ≤ e := by
  unfold checkedEpochs
  split_ifs with h
  · by_cases hgloas : cfg.gloasForkEpoch ≤ epoch
    · exact ⟨cfg.gloasForkEpoch, by simp, by simp [hgloas]⟩
    · exact ⟨0, by simp, by omega⟩
  · exact ⟨0, by simp, by omega⟩

theorem dueAt_of_valid (hset : cfg.attestationOffsetMs ≠ 0 ∨ cfg.aggregationOffsetMs ≠ 0)
    (valid : validateDutyOffsets cfg = .ok ()) {slot : Nat} (hslot : slot < 2 ^ 64)
    (hlast : ¬(cfg.gloasForkEpoch = farFutureEpoch ∧ toEpoch cfg slot = farFutureEpoch)) :
    attestationDueAt cfg slot < aggregationDueAt cfg slot ∧
      aggregationDueAt cfg slot < slotDurationAt cfg slot := by
  have hepoch : toEpoch cfg slot ≤ farFutureEpoch :=
    (Nat.div_le_self _ _).trans (Nat.le_sub_one_of_lt hslot)
  obtain ⟨epoch, hmem, hsame⟩ := exists_checkedEpoch hepoch hlast
  unfold validateDutyOffsets at valid
  rw [if_neg (by omega), forM_eq_ok] at valid
  have hcheck := forM_eq_ok.1 (valid _ (segmentOf_mem slot)) epoch hmem
  simp only [checkDue] at hcheck
  split_ifs at hcheck with _ hagg horder
  unfold attestationDueAt aggregationDueAt attestationDue aggregationDue
  rw [dutyDue_congr hsame, dutyDue_congr hsame]
  exact ⟨not_le.1 horder, not_le.1 hagg⟩

/-- The offset is no `time.Duration` and wraps to a time before the slot. -/
def wrappedOffset : BeaconChainConfig := { attestationOffsetMs := 10 ^ 13 }

/-- Only the attestation offset is set, and contributions are due after half a slot. -/
def earlyContributions : BeaconChainConfig :=
  { attestationOffsetMs := 8000, aggregateDueBPS := 9000, contributionDueBPS := 5000 }

end Validated

end LightChain.SlotTime

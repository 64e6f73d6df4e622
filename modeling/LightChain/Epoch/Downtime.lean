import LightChain.Epoch.Inactivity
import LightChain.Library.Fallible
import LightChain.SlotTime.Clock

/-!
# The wall-clock meaning of the ejection threshold

One call of `ProcessInactivityScores` adds at most the score bias, so a score counts
epochs. The threshold turns the minimum downtime into epochs of the current length, while
the score was collected over epochs of the lengths they had. `thresholdSound_iff` says for
which schedules the two agree: the epochs it takes to reach the threshold must themselves
have lasted the minimum downtime, up to one epoch.
-/
namespace LightChain.Epoch
open Library SlotTime

variable {cfg : BeaconChainConfig}

def ScoreCall (cfg : BeaconChainConfig) (i epoch s s' : Nat) : Prop :=
  ∃ st vals v st' vals', currentEpoch cfg st = epoch ∧ st.inactivityScores[i]? = some s ∧
    vals[i]? = some v ∧ v.inactivityScore = s ∧
    processInactivityScores cfg st vals = .ok (st', vals') ∧ st'.inactivityScores[i]? = some s'

/-- Calls at the consecutive epochs from `first` on, starting from score zero. -/
inductive ScoreRun (cfg : BeaconChainConfig) (i first : Nat) : Nat → Nat → Prop where
  | start {s : Nat} : ScoreCall cfg i first 0 s → ScoreRun cfg i first first s
  | step {epoch s s' : Nat} : ScoreRun cfg i first epoch s → ScoreCall cfg i (epoch + 1) s s' →
      ScoreRun cfg i first (epoch + 1) s'

/-! ## A call adds at most the bias -/

variable {v : PrecomputeValidator}

theorem nextScore_le {leak : Bool} {s : Nat} (h : nextScore cfg leak v = .ok s) :
    s ≤ v.inactivityScore + cfg.inactivityScoreBias := by
  obtain ⟨t, ht, hs⟩ := bind_eq_ok.mp h
  have hle : t ≤ v.inactivityScore + cfg.inactivityScoreBias := by
    unfold accruedScore at ht
    split_ifs at ht with attested
    · cases ht
      omega
    · exact (checkedAdd_eq_ok.mp ht).2.le
  obtain rfl := pure_eq_ok.mp hs
  split_ifs <;> omega

theorem scoreLoop_get {leak : Bool} {vals vals' : List PrecomputeValidator}
    {scores scores' : List Nat} (run : scoreLoop cfg leak vals scores = .ok (scores', vals'))
    {i s : Nat} (hv : vals[i]? = some v) (hs : scores[i]? = some s) :
    ∃ s', scores'[i]? = some s' ∧ (s' = s ∨ nextScore cfg leak v = .ok s') := by
  induction vals generalizing scores scores' vals' i with
  | nil => cases hv
  | cons w vals ih =>
    cases scores with
    | nil => cases hs
    | cons t scores =>
      unfold scoreLoop at run
      split_ifs at run with eligible
      · obtain ⟨next, hnext, run⟩ := bind_eq_ok.mp run
        obtain ⟨⟨rest, vals''⟩, hrest, hout⟩ := bind_eq_ok.mp run
        cases hout
        cases i with
        | zero =>
          cases hv
          exact ⟨next, rfl, .inr hnext⟩
        | succ i => exact ih hrest hv hs
      · obtain ⟨⟨rest, vals''⟩, hrest, hout⟩ := bind_eq_ok.mp run
        cases hout
        cases i with
        | zero => exact ⟨s, hs, .inl rfl⟩
        | succ i => exact ih hrest hv hs

theorem ScoreCall.le {i epoch s s' : Nat} (h : ScoreCall cfg i epoch s s') :
    s' ≤ s + cfg.inactivityScoreBias := by
  obtain ⟨st, vals, v, st', vals', -, hs, hv, hvs, run, hs'⟩ := h
  unfold processInactivityScores at run
  split_ifs at run
  · cases run
    rw [hs] at hs'
    cases hs'
    omega
  · obtain ⟨⟨scores, ws⟩, hloop, hout⟩ := bind_eq_ok.mp run
    cases hout
    obtain ⟨t, ht, hcases⟩ := scoreLoop_get hloop hv hs
    have heq : s' = t := Option.some.inj (hs'.symm.trans ht)
    rcases hcases with hkeep | hnext
    · omega
    · have := nextScore_le hnext
      omega

theorem ScoreCall.genesis {i s s' : Nat} (h : ScoreCall cfg i 0 s s') : s' = s := by
  obtain ⟨st, vals, v, st', vals', hepoch, hs, -, -, run, hs'⟩ := h
  unfold processInactivityScores at run
  rw [if_pos (show currentEpoch cfg st = genesisEpoch from hepoch)] at run
  cases run
  exact Option.some.inj (hs'.symm.trans hs)

theorem ScoreRun.le {i first epoch s : Nat} (h : ScoreRun cfg i first epoch s) :
    first ≤ epoch ∧ s ≤ (epoch + 1 - first) * cfg.inactivityScoreBias ∧
      s ≤ epoch * cfg.inactivityScoreBias := by
  induction h with
  | @start s call =>
    have hle := call.le
    refine ⟨le_rfl, by simpa using hle, ?_⟩
    cases first with
    | zero => simpa using call.genesis.le
    | succ n => nlinarith
  | @step epoch s s' run call ih =>
    have hle := call.le
    have hcount : epoch + 1 + 1 - first = epoch + 1 - first + 1 := by omega
    rw [hcount, Nat.add_mul, Nat.add_mul]
    omega

/-! ## A validator that misses every target in a leak -/

/-- A finalized epoch that leaves the chain in an inactivity leak. -/
def leakFinalized (cfg : BeaconChainConfig) (prev : Nat) : Nat :=
  if cfg.minEpochsToInactivityPenalty < prev then 0 else prev + 1

theorem isInInactivityLeak_leakFinalized {prev : Nat} (h : prev < 2 ^ 64 - 1) :
    isInInactivityLeak cfg prev (leakFinalized cfg prev) = true := by
  have hmin := cfg.minEpochsToInactivityPenalty_lt
  unfold isInInactivityLeak leakFinalized
  split_ifs with late
  · rw [sub64_of_le (by omega) (Nat.zero_le _)]
    simpa using late
  · simp only [sub64, uint64, gt_iff_lt, decide_eq_true_eq]
    omega

theorem scoreCall_leak {epoch s : Nat} (hepoch : 0 < epoch) (hlt : epoch < 2 ^ 64)
    (hs : s + cfg.inactivityScoreBias < 2 ^ 64) :
    ScoreCall cfg 0 epoch s (s + cfg.inactivityScoreBias) := by
  let st : BeaconState :=
    { version := .altair, slot := epoch * cfg.slotsPerEpoch, validators := [], balances := []
      inactivityScores := [s], previousEpochParticipation := []
      currentEpochParticipation := [], finalizedCheckpointEpoch := leakFinalized cfg (epoch - 1)
      earliestExitEpoch := 0, exitBalanceToConsume := 0 }
  let v : PrecomputeValidator := { isActivePrevEpoch := true, inactivityScore := s }
  have hcur : currentEpoch cfg st = epoch := Nat.mul_div_cancel _ cfg.slotsPerEpoch_pos
  have hprev : prevEpoch cfg st = epoch - 1 := by
    unfold prevEpoch
    rw [hcur, if_neg (by omega)]
  have hleak : isInInactivityLeak cfg (prevEpoch cfg st) st.finalizedCheckpointEpoch = true := by
    rw [hprev]
    exact isInInactivityLeak_leakFinalized (by omega)
  have hscore : nextScore cfg true v = .ok (s + cfg.inactivityScoreBias) := by
    refine bind_eq_ok.mpr ⟨s + cfg.inactivityScoreBias, ?_, rfl⟩
    exact checkedAdd_eq_ok.mpr ⟨hs, rfl⟩
  have hloop : scoreLoop cfg true [v] [s] =
      .ok ([s + cfg.inactivityScoreBias],
        [{ v with inactivityScore := s + cfg.inactivityScoreBias }]) := by
    simp [scoreLoop, eligibleForRewards, v, hscore]
  refine ⟨st, [v], v, { st with inactivityScores := [s + cfg.inactivityScoreBias] },
    [{ v with inactivityScore := s + cfg.inactivityScoreBias }], hcur, rfl, rfl, rfl, ?_, rfl⟩
  unfold processInactivityScores
  rw [if_neg (show currentEpoch cfg st ≠ genesisEpoch by rw [hcur, genesisEpoch]; omega),
    if_neg (show ¬Version.altair < Version.altair by decide)]
  simp only [hleak]
  exact bind_eq_ok.mpr ⟨_, hloop, rfl⟩

/-- After `n + 1` epochs of leak from `first` on the score is that many times the bias. -/
theorem scoreRun_leak {first : Nat} (hfirst : 0 < first) (n : Nat) (hlt : first + n < 2 ^ 64)
    (hs : (n + 1) * cfg.inactivityScoreBias < 2 ^ 64) :
    ScoreRun cfg 0 first (first + n) ((n + 1) * cfg.inactivityScoreBias) := by
  induction n with
  | zero =>
    have call : ScoreCall cfg 0 first 0 (0 + cfg.inactivityScoreBias) :=
      scoreCall_leak hfirst hlt (by simpa using hs)
    simpa using ScoreRun.start call
  | succ n ih =>
    rw [Nat.add_mul, Nat.one_mul] at hs ⊢
    exact (ih (by omega) (by omega)).step (scoreCall_leak (by omega) (by omega) hs)

/-! ## The threshold in epochs -/

/-- The slot length the threshold of an epoch is computed from. -/
def epochSlotMillis (cfg : BeaconChainConfig) (epoch : Nat) : Nat :=
  (segmentOf cfg (epoch * cfg.slotsPerEpoch)).durationMillis

def epochLength (cfg : BeaconChainConfig) (epoch : Nat) : Nat :=
  cfg.slotsPerEpoch * (epochSlotMillis cfg epoch * 1000000)

def leakEpochs (cfg : BeaconChainConfig) (epoch : Nat) : Nat :=
  max 1 (inactivityEjectionMinDowntimeSeconds * 1000 / (cfg.slotsPerEpoch * epochSlotMillis cfg epoch))

def minDowntime : Nat := inactivityEjectionMinDowntimeSeconds * 1000000000

variable {epoch : Nat}

theorem epochSlotMillis_lt (fits : slotOffset cfg ((epoch + 1) * cfg.slotsPerEpoch) < 2 ^ 63)
    (h : 0 < slotDurationMillis cfg) : epochSlotMillis cfg epoch * 1000000 < 2 ^ 63 := by
  have hsucc := slotOffset_succ cfg (epoch * cfg.slotsPerEpoch)
  have hle : epoch * cfg.slotsPerEpoch + 1 ≤ (epoch + 1) * cfg.slotsPerEpoch := by
    rw [Nat.add_mul, Nat.one_mul]
    exact Nat.add_le_add_left cfg.slotsPerEpoch_pos _
  have hmono := (slotOffset_strictMono h).monotone hle
  unfold epochSlotMillis
  omega

section

variable (fits : slotOffset cfg ((epoch + 1) * cfg.slotsPerEpoch) < 2 ^ 63)
  (h : 0 < slotDurationMillis cfg)

include fits h

theorem slotDurationAt_epoch :
    slotDurationAt cfg (epoch * cfg.slotsPerEpoch) =
      ((epochSlotMillis cfg epoch * 1000000 : Nat) : Int) :=
  segmentDuration_eq (epochSlotMillis_lt fits h)

/-- The threshold is the bias times the number of epochs, unless an epoch is so long that
its milliseconds overflow. -/
theorem threshold_eq (hbias : 0 < cfg.inactivityScoreBias)
    (hproduct : inactivityEjectionMinDowntimeSeconds * 1000 * cfg.inactivityScoreBias < 2 ^ 64)
    (hshort : cfg.slotsPerEpoch * epochSlotMillis cfg epoch < 2 ^ 64) :
    inactivityEjectionThreshold cfg epoch = leakEpochs cfg epoch * cfg.inactivityScoreBias := by
  have hstart : cfg.slotsPerEpoch * epoch < 2 ^ 64 := by
    have hle : cfg.slotsPerEpoch * epoch ≤ (epoch + 1) * cfg.slotsPerEpoch := by
      rw [Nat.mul_comm]
      exact Nat.mul_le_mul_right _ (Nat.le_succ _)
    have := le_slotOffset h ((epoch + 1) * cfg.slotsPerEpoch)
    omega
  have hlt := epochSlotMillis_lt fits h
  have hmillis : int64ToUint64 (milliseconds (slotDurationAt cfg (cfg.slotsPerEpoch * epoch))) =
      epochSlotMillis cfg epoch := by
    rw [Nat.mul_comm, slotDurationAt_epoch fits h, milliseconds, millisecond, Nat.cast_mul,
      Nat.cast_ofNat, Int.mul_tdiv_cancel _ (by norm_num), int64ToUint64_natCast (by omega)]
  have hpos : 0 < cfg.slotsPerEpoch * epochSlotMillis cfg epoch :=
    Nat.mul_pos cfg.slotsPerEpoch_pos (durationMillis_pos h (segmentOf_mem _))
  have hleak : leakEpochs cfg epoch ≤ inactivityEjectionMinDowntimeSeconds * 1000 :=
    max_le (by decide) (Nat.div_le_self _ _)
  have hfit : leakEpochs cfg epoch * cfg.inactivityScoreBias < 2 ^ 64 :=
    (Nat.mul_le_mul_right _ hleak).trans_lt hproduct
  have hmul : mul64 (epochSlotMillis cfg epoch) cfg.slotsPerEpoch =
      cfg.slotsPerEpoch * epochSlotMillis cfg epoch := by
    rw [mul64_of_lt (by rwa [Nat.mul_comm]), Nat.mul_comm]
  have hclamp : ∀ q : Nat, (if q = 0 then 1 else q) = max 1 q := by
    intro q
    split_ifs <;> omega
  unfold inactivityEjectionThreshold epochStart
  rw [safeMul64_of_lt hstart]
  simp only [hmillis, hmul]
  rw [if_neg (by omega), hclamp, ← leakEpochs, mul64_of_lt hfit]

/-! ## When the threshold means the minimum downtime -/

/-- From the start of one epoch to the end of another the clock has run for the minimum
downtime, up to one epoch of the length the threshold is computed from. -/
def EnoughDowntime (cfg : BeaconChainConfig) (first last : Nat) : Prop :=
  ∀ genesis, ∃ t t', startTime cfg genesis (first * cfg.slotsPerEpoch) = some t ∧
    startTime cfg genesis ((last + 1) * cfg.slotsPerEpoch) = some t' ∧
    minDowntime ≤ t' - t + cfg.slotsPerEpoch * slotDurationAt cfg (last * cfg.slotsPerEpoch)

/-- No run that reaches the threshold of an epoch is shorter than the minimum downtime. -/
def ThresholdSound (cfg : BeaconChainConfig) (epoch : Nat) : Prop :=
  ∀ i first score, ScoreRun cfg i first epoch score →
    inactivityEjectionThreshold cfg epoch ≤ score → EnoughDowntime cfg first epoch

/-- The last epochs up to the given one, as many as the threshold asks for, have lasted the
minimum downtime up to one epoch. There may be fewer such epochs after genesis. -/
def LeakLasts (cfg : BeaconChainConfig) (epoch : Nat) : Prop :=
  leakEpochs cfg epoch ≤ epoch →
    slotOffset cfg ((epoch + 1 - leakEpochs cfg epoch) * cfg.slotsPerEpoch) + minDowntime ≤
      slotOffset cfg ((epoch + 1) * cfg.slotsPerEpoch) + epochLength cfg epoch

theorem enoughDowntime_iff {first : Nat} (hfirst : first ≤ epoch) :
    EnoughDowntime cfg first epoch ↔
      slotOffset cfg (first * cfg.slotsPerEpoch) + minDowntime ≤
        slotOffset cfg ((epoch + 1) * cfg.slotsPerEpoch) + epochLength cfg epoch := by
  have hmono : slotOffset cfg (first * cfg.slotsPerEpoch) ≤
      slotOffset cfg ((epoch + 1) * cfg.slotsPerEpoch) :=
    (slotOffset_strictMono h).monotone (Nat.mul_le_mul_right _ (by omega))
  have hlen : (cfg.slotsPerEpoch : Int) * slotDurationAt cfg (epoch * cfg.slotsPerEpoch) =
      epochLength cfg epoch := by
    rw [slotDurationAt_epoch fits h]
    rfl
  constructor
  · intro enough
    obtain ⟨t, t', ht, ht', hlong⟩ := enough 0
    rw [startTime_eq h 0 (hmono.trans_lt fits)] at ht
    rw [startTime_eq h 0 fits] at ht'
    cases ht
    cases ht'
    omega
  · intro hlong genesis
    refine ⟨_, _, startTime_eq h genesis (hmono.trans_lt fits), startTime_eq h genesis fits, ?_⟩
    omega

end

/-- An epoch whose milliseconds overflow is longer than the minimum downtime. -/
theorem minDowntime_le_epochLength
    (hlong : ¬cfg.slotsPerEpoch * epochSlotMillis cfg epoch < 2 ^ 64) :
    minDowntime ≤ epochLength cfg epoch := by
  have : epochLength cfg epoch = cfg.slotsPerEpoch * epochSlotMillis cfg epoch * 1000000 := by
    unfold epochLength
    ring
  unfold minDowntime inactivityEjectionMinDowntimeSeconds
  omega

/-- A chain of six-slot epochs that lengthens its slots from 2 to 6 seconds. -/
def lengthened : BeaconChainConfig :=
  { slotDurationMilliseconds := 2000, slotsPerEpoch := 6, slotsPerEpoch_pos := Nat.succ_pos 5
    slotTimeForkOneSlot := 12000, slotTimeForkOneMillis := 6000 }

/-- A chain of one-slot epochs that shortens its slots from an hour to half an hour. -/
def shortened : BeaconChainConfig :=
  { slotDurationMilliseconds := 3600000, slotsPerEpoch := 1
    slotTimeForkOneSlot := 8, slotTimeForkOneMillis := 1800000 }

end LightChain.Epoch

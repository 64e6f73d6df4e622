import LightChain.SlotTime.Duties

/-!
# Slot deadlines outside the slot clock

Three callers turn slots into times themselves. `SlotDeadline` and `HighestReceivedBlockDelay`
multiply and divide by the base slot length, so they follow the schedule only where its slots add
up to the same time. `arrivedEarly` drops the fraction of a second of an arrival before it
compares it with the slot clock, so its verdict is the one of the proposer boost for all arrivals
only where slots and their attestation deadlines begin with a full second.
-/
namespace LightChain.SlotTime
open Library

def second : Int := 1000000000

section Callers

variable (cfg : BeaconChainConfig) (genesis : Int)

/-- `SlotDeadline` of the validator. `none` is the panic of `Mul`. -/
def slotDeadline (slot : Nat) : Option Int :=
  match safeMul64 (add64 slot 1) cfg.secondsPerSlot with
  | none => none
  | some secs => some (genesis + int64 (int64 secs * second))

/-- `HighestReceivedBlockDelay` for the slot and the timestamp of the highest received node.
`none` is the panic of the division. -/
def highestReceivedBlockDelay (highest : Option (Nat × Int)) : Option Nat :=
  match highest with
  | none => some 0
  | some (slot, timestamp) =>
    match sinceSlotStart cfg slot genesis timestamp with
    | none => some 0
    | some sss =>
      if cfg.secondsPerSlot = 0 then none
      else some (int64ToUint64 (sss.tdiv second) / cfg.secondsPerSlot)

/-- `Truncate(time.Second)`: instants count from a full second. -/
def truncateSecond (t : Int) : Int := t - t % second

/-- `arrivedEarly` for the slot and the timestamp of a node: the verdict, and whether there is an
error. With an error the time since the slot start is zero. -/
def arrivedEarly (slot : Nat) (timestamp : Int) : Bool × Bool :=
  match sinceSlotStart cfg slot genesis (truncateSecond timestamp) with
  | none => (decide (0 < attestationDueAt cfg slot), true)
  | some sss => (decide (sss < attestationDueAt cfg slot), false)

end Callers

section Schedule

variable {cfg : BeaconChainConfig}

theorem sinceSlotStart_nonneg {slot : Nat} {genesis t d : Int}
    (h : sinceSlotStart cfg slot genesis t = some d) : 0 ≤ d ∧ d < 2 ^ 63 := by
  unfold sinceSlotStart at h
  split at h
  · cases h
  · split_ifs at h with hlt
    cases h
    unfold timeSub
    omega

theorem delay_eq_iff {d : Int} (hd : 0 ≤ d ∧ d < 2 ^ 63) (hpos : 0 < cfg.secondsPerSlot)
    (k : Nat) : int64ToUint64 (d.tdiv second) / cfg.secondsPerSlot = k ↔
      k * (cfg.secondsPerSlot * second) ≤ d ∧ d < (k + 1) * (cfg.secondsPerSlot * second) := by
  obtain ⟨n, rfl⟩ := Int.eq_ofNat_of_zero_le hd.1
  have hsecs : int64ToUint64 ((n : Int).tdiv second) = n / 1000000000 := by
    rw [second, show (1000000000 : Int) = ((1000000000 : Nat) : Int) from rfl, ← Int.ofNat_tdiv,
      int64ToUint64_natCast (by omega)]
  have hbase : (cfg.secondsPerSlot : Int) * second = (cfg.secondsPerSlot * 1000000000 : Nat) := by
    push_cast [second]
    rfl
  rw [hsecs, hbase, Nat.div_div_eq_div_mul, mul_comm 1000000000, Nat.div_eq_iff (by omega)]
  norm_cast
  have : (k + 1) * (cfg.secondsPerSlot * 1000000000) =
      k * (cfg.secondsPerSlot * 1000000000) + cfg.secondsPerSlot * 1000000000 := Nat.succ_mul _ _
  omega

/-- As many base slots have passed since the start of a slot, or the slot has not started. -/
def BasePassed (cfg : BeaconChainConfig) (genesis : Int) (slot : Nat) (t : Int) (k : Nat) : Prop :=
  match sinceSlotStart cfg slot genesis t with
  | none => k = 0
  | some sss => k * (cfg.secondsPerSlot * second) ≤ sss ∧
      sss < (k + 1) * (cfg.secondsPerSlot * second)

theorem highestReceivedBlockDelay_eq_iff (hpos : 0 < cfg.secondsPerSlot) (genesis : Int)
    (slot : Nat) (t : Int) (k : Nat) :
    highestReceivedBlockDelay cfg genesis (some (slot, t)) = some k ↔
      BasePassed cfg genesis slot t k := by
  simp only [highestReceivedBlockDelay, BasePassed]
  cases hsince : sinceSlotStart cfg slot genesis t with
  | none => simp [eq_comm]
  | some sss => simp [hpos.ne', ← delay_eq_iff (sinceSlotStart_nonneg hsince) hpos]

/-- Slots of six seconds from slot 4 on. -/
def shorterSlots : BeaconChainConfig := { slotTimeForkOneSlot := 4, slotTimeForkOneMillis := 6000 }

end Schedule

section Early

variable {cfg : BeaconChainConfig}

theorem truncateSecond_add {a : Int} (ha : second ∣ a) (b : Int) :
    truncateSecond (a + b) = a + (b - b % second) := by
  unfold truncateSecond second at *
  omega

theorem sinceSlotStart_eq (h : 0 < slotDurationMillis cfg) (genesis : Int) {slot : Nat}
    (fits : slotOffset cfg (slot + 1) < 2 ^ 63) {t : Int}
    (hnext : t < genesis + slotOffset cfg (slot + 1)) :
    sinceSlotStart cfg slot genesis t = if t < genesis + slotOffset cfg slot then none
      else some (t - (genesis + slotOffset cfg slot)) := by
  have hlt : slotOffset cfg slot < slotOffset cfg (slot + 1) :=
    slotOffset_strictMono h (Nat.lt_succ_self slot)
  simp only [sinceSlotStart, startTime_eq h genesis (hlt.trans fits)]
  split_ifs with hbefore
  · rfl
  · unfold timeSub
    congr 1
    omega

/-- `arrivedEarly` gives every block of a slot the verdict of the proposer boost, which compares
the time since the slot start, exactly if the slot starts with a full second, and so does its
attestation deadline if it is within the slot. -/
theorem arrivedEarly_agrees_iff (h : 0 < slotDurationMillis cfg) (genesis : Int) {slot : Nat}
    (fits : slotOffset cfg (slot + 1) < 2 ^ 63) :
    (∀ t, genesis + slotOffset cfg slot ≤ t → t < genesis + slotOffset cfg (slot + 1) →
        sinceSlotStart cfg slot genesis t = some (t - (genesis + slotOffset cfg slot)) ∧
        arrivedEarly cfg genesis slot t =
          (decide (t - (genesis + slotOffset cfg slot) < attestationDueAt cfg slot), false)) ↔
      second ∣ genesis + slotOffset cfg slot ∧
        (attestationDueAt cfg slot ≤ 0 ∨ slotDurationAt cfg slot ≤ attestationDueAt cfg slot ∨
          second ∣ attestationDueAt cfg slot) := by
  have hlen := slotDurationAt_eq fits
  have hlt : slotOffset cfg slot < slotOffset cfg (slot + 1) :=
    slotOffset_strictMono h (Nat.lt_succ_self slot)
  generalize hstart : genesis + slotOffset cfg slot = start
  generalize hdue : attestationDueAt cfg slot = due
  have hsince (t : Int) (hnext : t < genesis + slotOffset cfg (slot + 1)) :
      sinceSlotStart cfg slot genesis t = if t < start then none else some (t - start) := by
    rw [sinceSlotStart_eq h genesis fits hnext, hstart]
  have hcode (t : Int) (hnext : t < genesis + slotOffset cfg (slot + 1)) :
      arrivedEarly cfg genesis slot t = if truncateSecond t < start then (decide (0 < due), true)
        else (decide (truncateSecond t - start < due), false) := by
    have hcut : truncateSecond t ≤ t := by
      unfold truncateSecond second
      omega
    rw [arrivedEarly, hsince _ (hcut.trans_lt hnext), hdue]
    split_ifs with hbefore <;> rfl
  constructor
  · intro agrees
    have hfull : second ∣ start := by
      have := hcode start (by omega)
      rw [(agrees start le_rfl (by omega)).2] at this
      unfold truncateSecond second at *
      split_ifs at this with hbefore
      · simp at this
      · omega
    refine ⟨hfull, ?_⟩
    by_contra hdeadline
    -- a block that arrives with the deadline is late, and early with its fraction cut off
    have hin : start + due < genesis + slotOffset cfg (slot + 1) := by omega
    have := hcode (start + due) hin
    rw [(agrees (start + due) (by omega) hin).2, truncateSecond_add hfull] at this
    unfold second at *
    rw [if_neg (by omega)] at this
    simp only [Prod.mk.injEq, decide_eq_decide, and_true] at this
    omega
  · rintro ⟨hfull, hdeadline⟩ t hle hnext
    refine ⟨by rw [hsince t hnext, if_neg (not_lt.2 hle)], ?_⟩
    obtain ⟨e, rfl⟩ : ∃ e, t = start + e := ⟨t - start, by omega⟩
    rw [hcode _ hnext, truncateSecond_add hfull]
    unfold second at *
    rw [if_neg (by omega)]
    simp only [Prod.mk.injEq, decide_eq_decide, and_true]
    omega

/-- Attestations are due four seconds into a slot of twelve. -/
def fourSeconds : BeaconChainConfig := { attestationOffsetMs := 4000 }

theorem fourSeconds_arrivedEarly :
    arrivedEarly fourSeconds 0 1 15500000000 =
      (decide (15500000000 - (0 + slotOffset fourSeconds 1 : Int) < attestationDueAt fourSeconds 1),
        false) :=
  ((arrivedEarly_agrees_iff (by decide) 0 (by decide +kernel)).mpr (by decide +kernel)
    15500000000 (by decide +kernel) (by decide +kernel)).2

/-- With the default deadline of 3.999 seconds, a block that arrives half a millisecond later is
late for the boost and early for the reorg. With slots of 2.5 seconds, a block that arrives 0.1
seconds into slot 1 is no block of the slot yet. -/
theorem arrivedEarly_disagrees :
    sinceSlotStart {} 0 0 3999500000 = some 3999500000 ∧ attestationDueAt {} 0 = 3999000000 ∧
      arrivedEarly {} 0 0 3999500000 = (true, false) ∧
      sinceSlotStart { slotDurationMilliseconds := 2500 } 1 0 2600000000 = some 100000000 ∧
      arrivedEarly { slotDurationMilliseconds := 2500 } 0 1 2600000000 = (true, true) := by
  decide +kernel

end Early

end LightChain.SlotTime

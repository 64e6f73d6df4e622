import LightChain.SlotTime.Clock

/-!
# The slot ticker

A ticker waits for the tick of a slot, which lies at an offset within the slot. The offset is
given for the base slot length and scaled to the length of the slot by a product that can wrap.
`tickInSlot_iff` states which ticks lie in their slots. A ticker that is started in the offset
after the first base slot begins with slot zero, although its tick is over.
-/
namespace LightChain.SlotTime
open Library Option

/-- `Duration.Truncate`. -/
def truncate (d m : Int) : Int := if m ≤ 0 then d else d - d.tmod m

def scaleToSlot (cfg : BeaconChainConfig) (offset : Int) (slot : Nat) : Option Int :=
  if (slotTimeSchedule cfg).length = 1 ∨ offset = 0 then some offset
  else
    let base := segmentDuration (genesisSegment cfg)
    let d := slotDurationAt cfg slot
    if base ≤ 0 ∨ d = base then some offset
    -- the division panics
    else if milliseconds base = 0 then none
    else some ((int64 (offset * milliseconds d)).tdiv (milliseconds base))

def tickTime (cfg : BeaconChainConfig) (genesis : Int) (slot : Nat) (offset : Int) :
    Option Int := do
  let t ← startTime cfg genesis slot
  let scaled ← scaleToSlot cfg offset slot
  return t + scaled

/-- The slot that is emitted next, and when. -/
structure SlotTicker where
  slot : Nat
  nextTickTime : Int
deriving DecidableEq, Repr

open SlotTicker

def secondsDuration (seconds : Nat) : Int := int64 (int64 seconds * 1000000000)

def scheduled (cfg : BeaconChainConfig) : Bool := 1 < (slotTimeSchedule cfg).length

section Tickers

variable (cfg : BeaconChainConfig) (genesis offset : Int) (secondsPerSlot : Nat)

/-- The state in which `start` enters its loop, if the clock reads `now`. -/
def SlotTicker.start (now : Int) : Option SlotTicker :=
  let d := secondsDuration secondsPerSlot
  let offsetGenesis := genesis + offset
  let sinceGenesis := timeSub now offsetGenesis
  if sinceGenesis < d then some ⟨0, offsetGenesis⟩
  else if scheduled cfg then do
    let now := genesis + timeSub now genesis
    let slot ← slotsAt cfg genesis now
    let t ← tickTime cfg genesis slot offset
    if now < t then return ⟨slot, t⟩
    -- This slot's tick is already behind us: the next one is due.
    let t ← tickTime cfg genesis (add64 slot 1) offset
    return ⟨add64 slot 1, t⟩
  else if d = 0 then none
  else
    let nextTick := int64 (truncate sinceGenesis d + d)
    some ⟨int64ToUint64 (nextTick.tdiv d), offsetGenesis + nextTick⟩

/-- One round of the loop, in which the slot of the state is emitted. -/
def SlotTicker.next (w : SlotTicker) : Option SlotTicker :=
  let slot := add64 w.slot 1
  if scheduled cfg then (tickTime cfg genesis slot offset).map (⟨slot, ·⟩)
  else some ⟨slot, w.nextTickTime + secondsDuration secondsPerSlot⟩

/-- The slots a ticker emits, with their tick times. -/
def SlotTicker.emitted (now : Int) : Nat → Option SlotTicker
  | 0 => start cfg genesis offset secondsPerSlot now
  | k + 1 => emitted now k >>= next cfg genesis offset secondsPerSlot

structure SlotIntervalTicker where
  slot : Nat
  interval : Nat
  nextTickTime : Int
deriving DecidableEq, Repr

variable (intervals : List Int)

def SlotIntervalTicker.waitFor (slot interval : Nat) : Option SlotIntervalTicker := do
  let offset ← intervals[interval]?
  let t ← tickTime cfg genesis slot offset
  return ⟨slot, interval, t⟩

def SlotIntervalTicker.startWithIntervals (now : Int) : Option SlotIntervalTicker := do
  let slot ← slotsAt cfg genesis now
  waitFor cfg genesis intervals (add64 slot 1) 0

def SlotIntervalTicker.next (w : SlotIntervalTicker) : Option SlotIntervalTicker :=
  if w.interval + 1 = intervals.length then waitFor cfg genesis intervals (add64 w.slot 1) 0
  else waitFor cfg genesis intervals w.slot (w.interval + 1)

def SlotIntervalTicker.emitted (now : Int) : Nat → Option SlotIntervalTicker
  | 0 => startWithIntervals cfg genesis intervals now
  | k + 1 => emitted now k >>= next cfg genesis intervals

end Tickers

section Scaling

variable {cfg : BeaconChainConfig} {offset : Int} {slot : Nat}

/-- The offset within a slot, if all slot lengths are representable. -/
def scaled (cfg : BeaconChainConfig) (offset : Int) (slot : Nat) : Int :=
  if (segmentOf cfg slot).durationMillis = slotDurationMillis cfg then offset
  else (int64 (offset * (segmentOf cfg slot).durationMillis)).tdiv (slotDurationMillis cfg)

theorem milliseconds_segmentDuration {s : SlotTimeSegment}
    (fits : s.durationMillis * 1000000 < 2 ^ 63) :
    milliseconds (segmentDuration s) = s.durationMillis := by
  rw [segmentDuration_eq fits, milliseconds, millisecond]
  push_cast
  exact Int.mul_tdiv_cancel _ (by norm_num)

theorem scaleToSlot_eq (h : 0 < slotDurationMillis cfg)
    (base : slotDurationMillis cfg * 1000000 < 2 ^ 63)
    (fits : (segmentOf cfg slot).durationMillis * 1000000 < 2 ^ 63) :
    scaleToSlot cfg offset slot = some (scaled cfg offset slot) := by
  have hbase : segmentDuration (genesisSegment cfg) = _ := segmentDuration_eq base
  have hd : slotDurationAt cfg slot = ↑((segmentOf cfg slot).durationMillis * 1000000) :=
    segmentDuration_eq fits
  have hmillis : milliseconds (segmentDuration (genesisSegment cfg)) = slotDurationMillis cfg :=
    milliseconds_segmentDuration base
  have hmillis' : milliseconds (slotDurationAt cfg slot) = (segmentOf cfg slot).durationMillis :=
    milliseconds_segmentDuration fits
  have hlength : (genesisSegment cfg).durationMillis = slotDurationMillis cfg := rfl
  unfold scaleToSlot scaled
  simp only [hmillis, hmillis']
  by_cases same : (segmentOf cfg slot).durationMillis = slotDurationMillis cfg
  · have hd' : slotDurationAt cfg slot = segmentDuration (genesisSegment cfg) := by
      rw [hd, hbase, same, hlength]
    simp [same, hd']
  · have hforks : forkSegments cfg ≠ [] := fun hnil =>
      same (by simp [segmentOf, hnil, lastWhere, hlength])
    have hne : ¬ (segmentDuration (genesisSegment cfg) ≤ 0 ∨
        slotDurationAt cfg slot = segmentDuration (genesisSegment cfg)) := by
      rw [hd, hbase]
      omega
    have hpos : ¬ (slotDurationMillis cfg : Int) = 0 := by omega
    simp only [if_neg same, if_neg hne, if_neg hpos]
    split_ifs with hone
    · obtain hone | hzero := hone
      · simp [slotTimeSchedule, hforks] at hone
      · simp [hzero, int64]
    · rfl

theorem scaled_lt (h : 0 < slotDurationMillis cfg) (hoffset : 0 ≤ offset)
    (hlt : offset < slotDurationMillis cfg * 1000000) :
    scaled cfg offset slot < (segmentOf cfg slot).durationMillis * 1000000 := by
  unfold scaled
  split_ifs with same
  · rwa [same]
  have hpos : 0 < (segmentOf cfg slot).durationMillis := durationMillis_pos h (segmentOf_mem slot)
  have hpos' : (0 : Int) < (segmentOf cfg slot).durationMillis := by omega
  have hbase : (0 : Int) < slotDurationMillis cfg := by omega
  have hproduct : 0 ≤ offset * (segmentOf cfg slot).durationMillis := by positivity
  rcases lt_or_ge (int64 (offset * (segmentOf cfg slot).durationMillis)) 0 with hneg | hnonneg
  · have hquot : 0 ≤ (-int64 (offset * (segmentOf cfg slot).durationMillis)).tdiv
        (slotDurationMillis cfg) := Int.tdiv_nonneg (by omega) hbase.le
    rw [Int.neg_tdiv] at hquot
    omega
  · rw [Int.tdiv_eq_ediv_of_nonneg hnonneg]
    refine Int.ediv_lt_of_lt_mul hbase ?_
    calc int64 (offset * (segmentOf cfg slot).durationMillis)
        ≤ offset * (segmentOf cfg slot).durationMillis := int64_le hproduct
      _ < slotDurationMillis cfg * 1000000 * (segmentOf cfg slot).durationMillis :=
        mul_lt_mul_of_pos_right hlt hpos'
      _ = (segmentOf cfg slot).durationMillis * 1000000 * slotDurationMillis cfg := by ring

end Scaling

section Ticks

variable {cfg : BeaconChainConfig} {genesis offset : Int} {slot last : Nat}

theorem segmentOf_zero (cfg : BeaconChainConfig) : segmentOf cfg 0 = genesisSegment cfg :=
  segmentOf_startSlot List.mem_cons_self

/-- All boundaries, all slot lengths and the slots up to `last` are representable times. -/
structure Representable (cfg : BeaconChainConfig) (last : Nat) : Prop where
  base_pos : 0 < slotDurationMillis cfg
  offsets : OffsetsFit cfg
  durations : DurationsFit cfg
  last_lt : slotOffset cfg (last + 1) < 2 ^ 63

section

variable (hr : Representable cfg last)

include hr

theorem Representable.base_fits : slotDurationMillis cfg * 1000000 < 2 ^ 63 := by
  have hfirst : slotOffset cfg 1 = slotOffset cfg 0 + slotDurationMillis cfg * 1000000 := by
    rw [slotOffset_succ, segmentOf_zero]
    rfl
  have hmono := (slotOffset_strictMono hr.base_pos).monotone (Nat.le_add_left 1 last)
  have hlast := hr.last_lt
  omega

theorem Representable.succ_lt (hslot : slot ≤ last) : slotOffset cfg (slot + 1) < 2 ^ 63 :=
  ((slotOffset_strictMono hr.base_pos).monotone (Nat.succ_le_succ hslot)).trans_lt hr.last_lt

theorem Representable.lt (hslot : slot ≤ last) :
    slotOffset cfg slot < 2 ^ 63 ∧ slot + 1 < 2 ^ 64 := by
  have hsucc := hr.succ_lt hslot
  have hmono := slotOffset_strictMono hr.base_pos (Nat.lt_add_one slot)
  have hle := le_slotOffset hr.base_pos (slot + 1)
  omega

theorem tickTime_eq (hslot : slot ≤ last) :
    tickTime cfg genesis slot offset =
      some (genesis + slotOffset cfg slot + scaled cfg offset slot) := by
  have hfits := hr.succ_lt hslot
  rw [slotOffset_succ] at hfits
  rw [tickTime, startTime_eq hr.base_pos genesis (hr.lt hslot).1,
    scaleToSlot_eq hr.base_pos hr.base_fits (by omega)]
  rfl

end

/-- The tick of a slot lies between the start of the slot and the start of the next one. -/
def TickInSlot (cfg : BeaconChainConfig) (genesis offset : Int) (slot : Nat) : Prop :=
  ∃ start t next, startTime cfg genesis slot = some start ∧
    tickTime cfg genesis slot offset = some t ∧ startTime cfg genesis (slot + 1) = some next ∧
    start ≤ t ∧ t < next ∧ slotsAt cfg genesis t = some slot

theorem tick_lt_next (h : 0 < slotDurationMillis cfg) (hoffset : 0 ≤ offset)
    (hlt : offset < slotDurationMillis cfg * 1000000) (slot : Nat) :
    slotOffset cfg slot + scaled cfg offset slot < slotOffset cfg (slot + 1) := by
  have hscaled : scaled cfg offset slot < _ := scaled_lt h hoffset hlt
  rw [slotOffset_succ]
  push_cast
  omega

theorem tickInSlot_iff (hr : Representable cfg last) (hoffset : 0 ≤ offset)
    (hlt : offset < slotDurationMillis cfg * 1000000) (hslot : slot ≤ last) :
    TickInSlot cfg genesis offset slot ↔ 0 ≤ scaled cfg offset slot := by
  have hnext := hr.succ_lt hslot
  have htick := tick_lt_next hr.base_pos hoffset hlt slot
  unfold TickInSlot
  rw [tickTime_eq hr hslot, startTime_eq hr.base_pos genesis (hr.lt hslot).1,
    startTime_eq hr.base_pos genesis hnext]
  constructor
  · rintro ⟨_, _, _, hs, ht, -, hle, -⟩
    cases hs
    cases ht
    omega
  · intro hnonneg
    refine ⟨_, _, _, rfl, rfl, rfl, by omega, by omega, ?_⟩
    obtain ⟨o, ho⟩ := Int.eq_ofNat_of_zero_le hnonneg
    rw [ho] at htick ⊢
    have he : genesis + slotOffset cfg slot + (o : Int) =
        genesis + ((slotOffset cfg slot + o : Nat) : Int) := by push_cast; ring
    have hexact : exactSlotAt cfg (slotOffset cfg slot + o) = slot :=
      (exactSlotAt_eq_iff hr.base_pos).mpr ⟨by omega, by omega⟩
    rw [he, slotsAt_eq hr.base_pos hr.offsets hr.durations genesis (by omega), hexact]

/-- What the tickers do for the slots up to `last`. -/
structure TickerSchedule (cfg : BeaconChainConfig) (genesis offset : Int) (secondsPerSlot : Nat)
    (intervals : List Int) (now : Int) (last : Nat) : Prop where
  inSlot : ∀ o ∈ offset :: intervals, ∀ slot ≤ last, TickInSlot cfg genesis o slot
  increasing : ∀ o ∈ offset :: intervals, ∀ slot < last, ∃ t t',
    tickTime cfg genesis slot o = some t ∧ tickTime cfg genesis (slot + 1) o = some t' ∧ t < t'
  emitted : scheduled cfg → ∃ first,
    IsLeast {slot | ∃ t, tickTime cfg genesis slot offset = some t ∧ now < t} first ∧
    ∀ k, first + k ≤ last → ∃ t, tickTime cfg genesis (first + k) offset = some t ∧
      emitted cfg genesis offset secondsPerSlot now k = some ⟨first + k, t⟩
  /-- The pairs of a slot and an interval are counted off from the slot after the current one. -/
  emittedIntervals : ∃ current, slotsAt cfg genesis now = some current ∧
    ∀ k, (current + 1) * intervals.length + k < (last + 1) * intervals.length →
      ∃ slot i o t, i < intervals.length ∧
        slot * intervals.length + i = (current + 1) * intervals.length + k ∧
        intervals[i]? = some o ∧ tickTime cfg genesis slot o = some t ∧
        SlotIntervalTicker.emitted cfg genesis intervals now k = some ⟨slot, i, t⟩
  ordered : ∀ slot ≤ last, intervals.Pairwise fun o o' => ∃ t t',
    tickTime cfg genesis slot o = some t ∧ tickTime cfg genesis slot o' = some t' ∧ t ≤ t'

variable {secondsPerSlot : Nat} {intervals : List Int} {now : Int} {first current : Nat}

section

variable (hr : Representable cfg last)

include hr

/-- After the first emission a ticker with a schedule goes from slot to slot. -/
theorem emitted_of_start (hscheduled : scheduled cfg)
    (hstart : start cfg genesis offset secondsPerSlot now =
      some ⟨first, genesis + slotOffset cfg first + scaled cfg offset first⟩)
    {k : Nat} (hk : first + k ≤ last) :
    emitted cfg genesis offset secondsPerSlot now k =
      some ⟨first + k, genesis + slotOffset cfg (first + k) + scaled cfg offset (first + k)⟩ := by
  induction k with
  | zero => exact hstart
  | succ k ih =>
    have hprev : first + k ≤ last := by omega
    rw [emitted, ih hprev, bind_eq_bind, bind_some, next,
      if_pos hscheduled, add64_of_lt (hr.lt hprev).2, add_assoc, tickTime_eq hr hk]
    rfl

theorem slotsAt_now (hgenesis : genesis ≤ now) (hnow : now < genesis + slotOffset cfg last) :
    ∃ current < last,
      slotsAt cfg genesis now = some current ∧ genesis + slotOffset cfg current ≤ now ∧
        now < genesis + slotOffset cfg (current + 1) := by
  obtain ⟨e, he⟩ := Int.eq_ofNat_of_zero_le (sub_nonneg.2 hgenesis)
  obtain rfl : now = genesis + e := by omega
  obtain ⟨hle, hlt⟩ := (exactSlotAt_eq_iff hr.base_pos).mp (rfl : exactSlotAt cfg e = _)
  have he' : e < 2 ^ 63 := lt_trans (by omega) (hr.lt le_rfl).1
  refine ⟨exactSlotAt cfg e, (slotOffset_strictMono hr.base_pos).lt_iff_lt.1 (by omega),
    slotsAt_eq hr.base_pos hr.offsets hr.durations genesis he', by omega, by omega⟩

/-- The first slot of a ticker with a schedule, if the tick of slot zero is a base slot ago. -/
theorem start_isLeast (hoffset : 0 ≤ offset) (hlt : offset < slotDurationMillis cfg * 1000000)
    (hscheduled : scheduled cfg) (hlate : genesis + offset + secondsDuration secondsPerSlot ≤ now)
    (hgenesis : genesis ≤ now) (hnow : now < genesis + slotOffset cfg last)
    (hnonneg : ∀ slot ≤ last, 0 ≤ scaled cfg offset slot) : ∃ first ≤ last,
      start cfg genesis offset secondsPerSlot now =
        some ⟨first, genesis + slotOffset cfg first + scaled cfg offset first⟩ ∧
      IsLeast {slot | ∃ t, tickTime cfg genesis slot offset = some t ∧ now < t} first := by
  obtain ⟨current, hcurrent, hat, hle, hgt⟩ := slotsAt_now hr hgenesis hnow
  have hlast := (hr.lt le_rfl).1
  have hbase := hr.base_fits
  have hsub : timeSub now genesis = now - genesis := by
    unfold timeSub
    omega
  have hsince : timeSub now (genesis + offset) = now - (genesis + offset) := by
    unfold timeSub
    omega
  have hbefore : ∀ slot < current,
      genesis + slotOffset cfg slot + scaled cfg offset slot < now := by
    intro slot hslot
    have htick := tick_lt_next hr.base_pos hoffset hlt slot
    have hstep : slotOffset cfg (slot + 1) ≤ slotOffset cfg current :=
      (slotOffset_strictMono hr.base_pos).monotone (Nat.succ_le_of_lt hslot)
    omega
  unfold start
  simp only [hsince, hsub, add_sub_cancel, hscheduled, if_true]
  rw [if_neg (by omega), hat]
  simp only [bind_eq_bind, bind_some, tickTime_eq hr hcurrent.le,
    add64_of_lt (hr.lt hcurrent.le).2, tickTime_eq hr hcurrent]
  split_ifs with hdue
  · refine ⟨current, hcurrent.le, rfl, ⟨_, tickTime_eq hr hcurrent.le, hdue⟩, ?_⟩
    rintro slot ⟨t, ht, hafter⟩
    by_contra! hslot
    rw [tickTime_eq hr (hslot.le.trans hcurrent.le)] at ht
    cases ht
    exact absurd (hbefore slot hslot) (by omega)
  · have hnext := hnonneg (current + 1) hcurrent
    refine ⟨current + 1, hcurrent, rfl, ⟨_, tickTime_eq hr hcurrent, by omega⟩, ?_⟩
    rintro slot ⟨t, ht, hafter⟩
    by_contra! hslot
    rw [tickTime_eq hr (by omega)] at ht
    cases ht
    obtain hslot | rfl := Nat.lt_succ_iff_lt_or_eq.1 hslot
    · exact absurd (hbefore slot hslot) (by omega)
    · exact hdue hafter

theorem waitFor_eq (hslot : slot ≤ last) {i : Nat} {o : Int} (hi : intervals[i]? = some o) :
    SlotIntervalTicker.waitFor cfg genesis intervals slot i =
      some ⟨slot, i, genesis + slotOffset cfg slot + scaled cfg o slot⟩ := by
  simp [SlotIntervalTicker.waitFor, hi, tickTime_eq hr hslot]

theorem emittedIntervals_eq (hintervals : intervals ≠ [])
    (hat : slotsAt cfg genesis now = some current) {k : Nat}
    (hk : (current + 1) * intervals.length + k < (last + 1) * intervals.length) :
    ∃ slot i o, i < intervals.length ∧ slot ≤ last ∧
      slot * intervals.length + i = (current + 1) * intervals.length + k ∧
      intervals[i]? = some o ∧ SlotIntervalTicker.emitted cfg genesis intervals now k =
        some ⟨slot, i, genesis + slotOffset cfg slot + scaled cfg o slot⟩ := by
  have hlength := List.length_pos_iff.2 hintervals
  have hle : ∀ {slot i m : Nat}, slot * intervals.length + i = m →
      m < (last + 1) * intervals.length → slot ≤ last := by
    intro slot i m hm hlt
    have hmul : slot * intervals.length < (last + 1) * intervals.length := by omega
    exact Nat.lt_succ_iff.1 (Nat.lt_of_mul_lt_mul_right hmul)
  induction k with
  | zero =>
    have hslot : current + 1 ≤ last := hle rfl hk
    refine ⟨current + 1, 0, intervals[0], hlength, hslot, rfl, by simp, ?_⟩
    rw [SlotIntervalTicker.emitted, SlotIntervalTicker.startWithIntervals, hat,
      bind_eq_bind, bind_some, add64_of_lt (by have := hr.lt hslot; omega)]
    exact waitFor_eq hr hslot (by simp)
  | succ k ih =>
    obtain ⟨slot, i, o, hi, hslot, hcount, -, hemitted⟩ := ih (by omega)
    rw [SlotIntervalTicker.emitted, hemitted, bind_eq_bind, bind_some,
      SlotIntervalTicker.next]
    by_cases hend : i + 1 = intervals.length
    · have hcount' : (slot + 1) * intervals.length + 0 =
          (current + 1) * intervals.length + (k + 1) := by
        rw [Nat.succ_mul slot]
        omega
      have hnext : slot + 1 ≤ last := hle hcount' hk
      refine ⟨slot + 1, 0, intervals[0], hlength, hnext, hcount', by simp, ?_⟩
      rw [if_pos hend, add64_of_lt (hr.lt hslot).2]
      exact waitFor_eq hr hnext (by simp)
    · have hnext : i + 1 < intervals.length := by omega
      refine ⟨slot, i + 1, intervals[i + 1], hnext, hslot, by omega, by simp [hnext], ?_⟩
      rw [if_neg hend]
      exact waitFor_eq hr hslot (by simp [hnext])

end

end Ticks

/-- Slots of twelve seconds, and of six seconds from slot ten on. -/
def halvedSlots : BeaconChainConfig where
  slotTimeForkOneSlot := 10
  slotTimeForkOneMillis := 6000

/-- Slots of an hour, which are a millisecond longer from slot ten on. -/
def hourSlots : BeaconChainConfig where
  slotDurationMilliseconds := 3600000
  slotTimeForkOneSlot := 10
  slotTimeForkOneMillis := 3600001

end LightChain.SlotTime

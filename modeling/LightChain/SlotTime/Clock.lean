import LightChain.SlotTime.Schedule

/-!
# The slot clock refines the exact piecewise clock

`slotOffset` adds the scheduled slot lengths without overflow. `startTime` agrees
with it on every slot whose own offset is representable. `slotsAt` compares against
the offset of every boundary of the schedule, also of boundaries it has not reached,
so it agrees only when all of these are representable.
-/
namespace LightChain.SlotTime
open Library List Segment

/-- A segment with its slot length in nanoseconds. -/
def toSegment (s : SlotTimeSegment) : Segment := ⟨s.startSlot, s.durationMillis * 1000000⟩

variable (cfg : BeaconChainConfig)

/-- The exact time in nanoseconds from genesis to the start of a slot. -/
def slotOffset (slot : Nat) : Nat :=
  startOf (toSegment (genesisSegment cfg)) ((forkSegments cfg).map toSegment) slot

/-- The exact slot in progress a number of nanoseconds after genesis. -/
def exactSlotAt (elapsed : Nat) : Nat :=
  slotAt (toSegment (genesisSegment cfg)) ((forkSegments cfg).map toSegment) elapsed

/-- Every boundary of the schedule is a representable time after genesis. -/
def OffsetsFit : Prop :=
  ∀ s ∈ forkSegments cfg, slotOffset cfg s.startSlot < 2 ^ 63

/-- A slot length is a `time.Duration`; a length that is not may still stand in the last
segment, when its wrapped value is no shorter than the time that is left to represent. -/
def DurationFits (s : SlotTimeSegment) : Prop :=
  s.durationMillis * 1000000 < 2 ^ 63 ∨
    segmentDuration s ≠ 0 ∧
      2 ^ 63 ≤ slotOffset cfg s.startSlot + (segmentDuration s).natAbs

def DurationsFit : Prop :=
  ∀ s ∈ slotTimeSchedule cfg, DurationFits cfg s

instance (cfg : BeaconChainConfig) : Decidable (OffsetsFit cfg) :=
  inferInstanceAs (Decidable (∀ s ∈ forkSegments cfg, _))

instance (cfg : BeaconChainConfig) (s : SlotTimeSegment) : Decidable (DurationFits cfg s) :=
  inferInstanceAs (Decidable (_ ∨ _))

instance (cfg : BeaconChainConfig) : Decidable (DurationsFit cfg) :=
  inferInstanceAs (Decidable (∀ s ∈ slotTimeSchedule cfg, _))

def exactOffsets (prev : SlotTimeSegment) (o : Nat) :
    List SlotTimeSegment → List (SlotTimeSegment × Nat)
  | [] => []
  | s :: rest =>
    let o' := o + (s.startSlot - prev.startSlot) * (prev.durationMillis * 1000000)
    (s, o') :: exactOffsets s o' rest

theorem exactOffsets_toSegment (prev : SlotTimeSegment) (o : Nat) (rest : List SlotTimeSegment) :
    offsets (toSegment prev) o (rest.map toSegment) =
      (exactOffsets prev o rest).map (fun a => (toSegment a.1, a.2)) := by
  induction rest generalizing prev o with
  | nil => rfl
  | cons s rest ih =>
    simp only [map_cons, offsets, exactOffsets]
    rw [ih]
    rfl

/-- The wrapped offsets are the exact offsets folded into the `int64` range. -/
theorem offsetsAfter_eq (prev : SlotTimeSegment) (o : Nat) (rest : List SlotTimeSegment)
    (order : (prev :: rest).Pairwise (fun a b => a.startSlot < b.startSlot))
    (bound : ∀ s ∈ rest, s.startSlot < 2 ^ 64) :
    offsetsAfter prev (int64 o) rest =
      (exactOffsets prev o rest).map (fun a => (a.1, int64 a.2)) := by
  induction rest generalizing prev o with
  | nil => rfl
  | cons s rest ih =>
    have hlt : prev.startSlot < s.startSlot := rel_of_pairwise_cons order (by simp)
    have hspan : sub64 s.startSlot prev.startSlot = s.startSlot - prev.startSlot :=
      sub64_of_le (bound s (by simp)) hlt.le
    have hoff : int64 (int64 o + int64 (int64 (int64 ↑(sub64 s.startSlot prev.startSlot) *
        int64 prev.durationMillis) * millisecond)) =
        int64 ↑(o + (s.startSlot - prev.startSlot) * (prev.durationMillis * 1000000)) := by
      rw [hspan, int64_int64_mul, int64_int64_mul_left, int64_add_int64, int64_int64_add]
      congr 1
      push_cast [millisecond]
      ring
    simp only [offsetsAfter, exactOffsets, map_cons, hoff]
    rw [ih s _ order.of_cons fun a ha => bound a (mem_cons_of_mem _ ha)]

section Exact

variable {cfg : BeaconChainConfig} {s : SlotTimeSegment}

theorem durationMillis_pos (h : 0 < slotDurationMillis cfg) (hs : s ∈ slotTimeSchedule cfg) :
    0 < s.durationMillis := by
  rcases List.mem_cons.mp hs with rfl | hs
  · exact h
  · exact ((forkSegments_ascending cfg).2 s hs).2

theorem ascending (h : 0 < slotDurationMillis cfg) :
    Segment.Ascending (toSegment (genesisSegment cfg)) ((forkSegments cfg).map toSegment) := by
  refine ⟨?_, ?_⟩
  · rw [← map_cons (f := toSegment)]
    exact List.pairwise_map.mpr (forkSegments_ascending cfg).1
  · intro a ha
    rw [← map_cons (f := toSegment)] at ha
    obtain ⟨s, hs, rfl⟩ := List.mem_map.mp ha
    have := durationMillis_pos h hs
    simp only [toSegment]
    omega

def boundaries (cfg : BeaconChainConfig) : List (SlotTimeSegment × Nat) :=
  exactOffsets (genesisSegment cfg) 0 (forkSegments cfg)

theorem segmentOffsets_eq (cfg : BeaconChainConfig) :
    segmentOffsets cfg = (boundaries cfg).map (fun a => (a.1, int64 a.2)) := by
  obtain ⟨order, bound⟩ := forkSegments_ascending cfg
  have := offsetsAfter_eq (genesisSegment cfg) 0 (forkSegments cfg) order
    (fun s hs => (bound s hs).1)
  simpa [segmentOffsets, boundaries, int64] using this

theorem first_eq (s : SlotTimeSegment) :
    ((s, 0) : SlotTimeSegment × Int) = (s, int64 ((0 : Nat) : Int)) := by simp [int64]

theorem exactOffsets_map_fst (prev : SlotTimeSegment) (o : Nat) (rest : List SlotTimeSegment) :
    (exactOffsets prev o rest).map Prod.fst = rest := by
  induction rest generalizing prev o with
  | nil => rfl
  | cons s rest ih => simp [exactOffsets, ih]

theorem boundaries_map_fst (cfg : BeaconChainConfig) :
    (boundaries cfg).map Prod.fst = forkSegments cfg := exactOffsets_map_fst _ _ _

theorem lastWhere_offsets (p : Segment × Nat → Prop) [DecidablePred p] :
    lastWhere p (toSegment (genesisSegment cfg), 0) (offsets
      (toSegment (genesisSegment cfg)) 0 ((forkSegments cfg).map toSegment)) =
      Prod.map toSegment id (lastWhere (fun a : SlotTimeSegment × Nat => p (toSegment a.1, a.2))
        (genesisSegment cfg, 0) (boundaries cfg)) := by
  rw [exactOffsets_toSegment]
  exact lastWhere_map (Prod.map toSegment id) (genesisSegment cfg, 0) _ fun _ _ => Iff.rfl

theorem mem_forkSegments {a : SlotTimeSegment × Nat} (ha : a ∈ boundaries cfg) :
    a.1 ∈ forkSegments cfg := by
  rw [← boundaries_map_fst]
  exact mem_map_of_mem ha

section

variable (h : 0 < slotDurationMillis cfg)

include h

theorem exactOffset_eq :
    ∀ a ∈ boundaries cfg, a.2 = slotOffset cfg a.1.startSlot := by
  intro a ha
  have hmem : (toSegment a.1, a.2) ∈ offsets (toSegment (genesisSegment cfg)) 0
      ((forkSegments cfg).map toSegment) := by
    rw [exactOffsets_toSegment]
    exact List.mem_map.mpr ⟨a, ha, rfl⟩
  have := offsets_eq_walk (ascending h) 0 _ hmem
  rw [slotOffset, startOf_eq_walk (ascending h) rfl]
  rwa [Nat.zero_add] at this

theorem slotOffset_strictMono : StrictMono (slotOffset cfg) :=
  startOf_strictMono (ascending h)

theorem le_slotOffset (slot : Nat) : slot ≤ slotOffset cfg slot :=
  (slotOffset_strictMono h).le_apply

theorem slotOffset_le_iff (slot e : Nat) : slotOffset cfg slot ≤ e ↔ slot ≤ exactSlotAt cfg e :=
  galoisConnection (ascending h) slot e

theorem exactSlotAt_eq_iff {slot e : Nat} :
    exactSlotAt cfg e = slot ↔ slotOffset cfg slot ≤ e ∧ e < slotOffset cfg (slot + 1) :=
  slotAt_eq_iff (ascending h)

theorem exactSlotAt_mono : Monotone (exactSlotAt cfg) :=
  (galoisConnection (ascending h)).monotone_u

end

theorem segmentDuration_eq (fits : s.durationMillis * 1000000 < 2 ^ 63) :
    segmentDuration s = ((s.durationMillis * 1000000 : Nat) : Int) := by
  rw [← int64_natCast fits]
  simp [segmentDuration, millisecond]

def segmentOf (cfg : BeaconChainConfig) (slot : Nat) : SlotTimeSegment :=
  lastWhere (fun s : SlotTimeSegment => s.startSlot ≤ slot) (genesisSegment cfg) (forkSegments cfg)

theorem segmentOf_mem (slot : Nat) : segmentOf cfg slot ∈ slotTimeSchedule cfg :=
  lastWhere_mem _ _

theorem segmentOf_startSlot (hs : s ∈ slotTimeSchedule cfg) : segmentOf cfg s.startSlot = s := by
  have hle : (segmentOf cfg s.startSlot).startSlot ≤ s.startSlot :=
    lastWhere_spec (p := fun a : SlotTimeSegment => a.startSlot ≤ s.startSlot) (Nat.zero_le _)
  have hlast := lastWhere_last (p := fun a : SlotTimeSegment => a.startSlot ≤ s.startSlot)
    (forkSegments_ascending cfg).1 (Nat.zero_le _) hs le_rfl
  rcases hlast with heq | hlt
  · exact heq.symm
  · exact absurd hle (not_le.mpr hlt)

/-- The offset of a slot adds up the lengths of the slots before it. -/
theorem slotOffset_eq_sum (cfg : BeaconChainConfig) (slot : Nat) :
    slotOffset cfg slot =
      ∑ k ∈ Finset.range slot, (segmentOf cfg k).durationMillis * 1000000 := by
  unfold slotOffset startOf
  refine Finset.sum_congr rfl fun k _ => ?_
  have hlen := lastWhere_map (p := fun s : SlotTimeSegment => s.startSlot ≤ k)
    (q := fun s : Segment => s.first ≤ k) toSegment (genesisSegment cfg) (forkSegments cfg)
    (fun _ _ => Iff.rfl)
  rw [lengthAt, hlen]
  rfl

theorem slotOffset_succ (cfg : BeaconChainConfig) (slot : Nat) :
    slotOffset cfg (slot + 1) =
      slotOffset cfg slot + (segmentOf cfg slot).durationMillis * 1000000 := by
  rw [slotOffset_eq_sum, slotOffset_eq_sum, Finset.sum_range_succ]

theorem slotDurationAt_eq {slot : Nat} (fits : slotOffset cfg (slot + 1) < 2 ^ 63) :
    (slotOffset cfg (slot + 1) : Int) = slotOffset cfg slot + slotDurationAt cfg slot := by
  have next := slotOffset_succ cfg slot
  rw [slotDurationAt, segmentDuration_eq (s := lastWhere _ _ _) (by rw [← segmentOf]; omega), next]
  push_cast [segmentOf]
  rfl

/-- The milliseconds from the start of its segment to the start of a slot, the one product
that `startTime` checks. -/
def millisWithin (cfg : BeaconChainConfig) (slot : Nat) : Nat :=
  (slot - (segmentOf cfg slot).startSlot) * (segmentOf cfg slot).durationMillis

section

variable (h : 0 < slotDurationMillis cfg)

include h

/-- The walk over the wrapped offsets stops at the segment of the slot, whose exact offset
completes the offset of the slot. -/
theorem exists_offset (slot : Nat) : ∃ o : Nat,
    lastWhere (fun a : SlotTimeSegment × Int => a.1.startSlot ≤ slot)
      (genesisSegment cfg, 0) (segmentOffsets cfg) = (segmentOf cfg slot, int64 o) ∧
    (segmentOf cfg slot).startSlot ≤ slot ∧
    slotOffset cfg slot = o + millisWithin cfg slot * 1000000 := by
  let pick := lastWhere (fun a : SlotTimeSegment × Nat => a.1.startSlot ≤ slot)
    (genesisSegment cfg, 0) (boundaries cfg)
  have hcode : lastWhere (fun a : SlotTimeSegment × Int => a.1.startSlot ≤ slot)
      (genesisSegment cfg, 0) (segmentOffsets cfg) = (pick.1, int64 pick.2) := by
    rw [segmentOffsets_eq, first_eq]
    exact lastWhere_map (fun a : SlotTimeSegment × Nat => (a.1, int64 a.2))
      (genesisSegment cfg, 0) _ (fun _ _ => Iff.rfl)
  have hseg : segmentOf cfg slot = pick.1 := by
    have := lastWhere_map (p := fun a : SlotTimeSegment × Nat => a.1.startSlot ≤ slot)
      (q := fun s : SlotTimeSegment => s.startSlot ≤ slot) Prod.fst (genesisSegment cfg, 0)
      (boundaries cfg) (fun _ _ => Iff.rfl)
    rwa [boundaries_map_fst] at this
  obtain ⟨hle, hsum⟩ := walk_eq_of_offsets (ascending h) 0 (Nat.zero_le slot)
  rw [lastWhere_offsets, ← startOf_eq_walk (ascending h) rfl, Nat.zero_add] at hsum
  rw [lastWhere_offsets] at hle
  refine ⟨pick.2, ?_, ?_, ?_⟩
  · rw [hseg]
    exact hcode
  · rw [hseg]
    exact hle
  · rw [millisWithin, hseg, mul_assoc]
    exact hsum.symm

/-- A start time that is not refused is the exact one folded into the `int64` range. -/
theorem startTime_eq_ite (genesis : Int) {slot : Nat} (hslot : slot < 2 ^ 64) :
    startTime cfg genesis slot = if millisWithin cfg slot < 2 ^ 64 then
      some (genesis + int64 (slotOffset cfg slot)) else none := by
  obtain ⟨o, hcode, hle, hsum⟩ := exists_offset h slot
  have hwrap : int64 (int64 o + int64 (int64 (millisWithin cfg slot) * millisecond)) =
      int64 (slotOffset cfg slot) := by
    rw [hsum, int64_int64_mul_left, int64_add_int64, int64_int64_add]
    push_cast [millisecond]
    rfl
  unfold startTime
  simp only [hcode, sub64_of_le hslot hle]
  rw [safeMul64, ← millisWithin]
  split_ifs with fits
  · simp only [hwrap]
  · rfl

theorem startTime_eq (genesis : Int) {slot : Nat} (fits : slotOffset cfg slot < 2 ^ 63) :
    startTime cfg genesis slot = some (genesis + slotOffset cfg slot) := by
  have hslot := le_slotOffset h slot
  obtain ⟨o, -, -, hsum⟩ := exists_offset h slot
  rw [startTime_eq_ite h genesis (by omega), if_pos (by omega), int64_natCast fits]

end

/-- `startTime` is an error or exact for just the slots whose millisecond product is refused
or whose offset is a representable number of nanoseconds. -/
theorem startTime_exact_iff (h : 0 < slotDurationMillis cfg) (genesis : Int) {slot : Nat}
    (hslot : slot < 2 ^ 64) :
    (∀ t, startTime cfg genesis slot = some t →
        t = genesis + ↑(∑ k ∈ Finset.range slot, (segmentOf cfg k).durationMillis * 1000000)) ↔
      2 ^ 64 ≤ millisWithin cfg slot ∨ slotOffset cfg slot < 2 ^ 63 := by
  rw [startTime_eq_ite h genesis hslot, ← slotOffset_eq_sum]
  have hlt := int64_lt (slotOffset cfg slot)
  split_ifs with fits
  · simp only [Option.some.injEq, forall_eq']
    constructor
    · intro agrees
      exact .inr (by omega)
    · rintro (refused | small)
      · omega
      · rw [int64_natCast small]
  · simp only [false_implies, implies_true, true_iff]
    exact .inl (by omega)

theorem startTime_exact_genesis :
    0 < slotDurationMillis {} ∧ ∀ t, startTime {} 0 1 = some t →
      t = 0 + ↑(∑ k ∈ Finset.range 1, (segmentOf {} k).durationMillis * 1000000) :=
  ⟨by decide, (startTime_exact_iff (by decide) 0 (by norm_num)).mpr (.inr (by decide +kernel))⟩

/-- Slot 768614337 of twelve seconds starts more than 292 years after genesis, and the start
time computed for it lies before genesis. -/
theorem startTime_wraps : ∃ t, startTime {} 0 768614337 = some t ∧ t < 0 ∧
    t ≠ 0 + ↑(∑ k ∈ Finset.range 768614337, (segmentOf {} k).durationMillis * 1000000) := by
  refine ⟨-9223372029709551616, by decide +kernel, by decide, fun wrapped => ?_⟩
  rw [zero_add] at wrapped
  omega

section

variable (h : 0 < slotDurationMillis cfg)

include h

theorem exactSlotAt_le (e : Nat) : exactSlotAt cfg e ≤ e :=
  (le_slotOffset h _).trans ((exactSlotAt_eq_iff h).mp rfl).1

theorem exactOffset_fits (fits : OffsetsFit cfg) {a : SlotTimeSegment × Nat}
    (ha : a ∈ (genesisSegment cfg, 0) :: boundaries cfg) :
    a.1 ∈ slotTimeSchedule cfg ∧ a.2 = slotOffset cfg a.1.startSlot ∧ a.2 < 2 ^ 63 := by
  rcases List.mem_cons.mp ha with rfl | ha
  · exact ⟨mem_cons_self, rfl, by norm_num⟩
  · have hmem := mem_forkSegments ha
    have hoff := exactOffset_eq h a ha
    exact ⟨mem_cons_of_mem _ hmem, hoff, hoff ▸ fits a.1 hmem⟩

end

/-- The segment in progress a number of nanoseconds after genesis: the last of the schedule
that has started. -/
structure InProgress (cfg : BeaconChainConfig) (e : Nat) (s : SlotTimeSegment) : Prop where
  mem : s ∈ slotTimeSchedule cfg
  started : slotOffset cfg s.startSlot ≤ e
  last : ∀ s' ∈ slotTimeSchedule cfg, slotOffset cfg s'.startSlot ≤ e →
    s' = s ∨ s'.startSlot < s.startSlot
  exact : exactSlotAt cfg e =
    s.startSlot + (e - slotOffset cfg s.startSlot) / (s.durationMillis * 1000000)

theorem boundaries_order (cfg : BeaconChainConfig) :
    ((genesisSegment cfg, 0) :: boundaries cfg).Pairwise
      (fun a b => a.1.startSlot < b.1.startSlot) := by
  refine (pairwise_map (f := Prod.fst)
    (R := fun a b : SlotTimeSegment => a.startSlot < b.startSlot)).mp ?_
  rw [map_cons, boundaries_map_fst]
  exact (forkSegments_ascending cfg).1

/-- Once every boundary is representable, `slotsAt` divides by the wrapped length of the
segment in progress. -/
theorem slotsAt_inProgress (h : 0 < slotDurationMillis cfg) (fits : OffsetsFit cfg) {e : Nat}
    (he : e < 2 ^ 63) : ∃ s, InProgress cfg e s ∧ ∀ genesis,
      slotsAt cfg genesis (genesis + e) = if segmentDuration s = 0 then none else
        some (add64 s.startSlot (int64ToUint64 (int64
          (((e - slotOffset cfg s.startSlot : Nat) : Int).tdiv (segmentDuration s))))) := by
  obtain ⟨pick, hpick⟩ : ∃ pick, pick = lastWhere (fun a : SlotTimeSegment × Nat => a.2 ≤ e)
    (genesisSegment cfg, 0) (boundaries cfg) := ⟨_, rfl⟩
  have hmem := lastWhere_mem (p := fun a : SlotTimeSegment × Nat => a.2 ≤ e)
    (genesisSegment cfg, 0) (boundaries cfg)
  have hle : pick.2 ≤ e :=
    hpick ▸ lastWhere_spec (p := fun a : SlotTimeSegment × Nat => a.2 ≤ e) (Nat.zero_le e)
  have hlast := fun y => lastWhere_last (p := fun a : SlotTimeSegment × Nat => a.2 ≤ e)
    (boundaries_order cfg) (Nat.zero_le e) (y := y)
  rw [← hpick] at hmem hlast
  obtain ⟨hsched, hoff, hfit⟩ := exactOffset_fits h fits hmem
  have hcode : lastWhere (fun a : SlotTimeSegment × Int => a.2 ≤ (e : Int))
      (genesisSegment cfg, 0) (segmentOffsets cfg) = (pick.1, (pick.2 : Int)) := by
    rw [← int64_natCast hfit, segmentOffsets_eq, first_eq, hpick]
    refine lastWhere_map (fun a : SlotTimeSegment × Nat => (a.1, int64 a.2))
      (genesisSegment cfg, 0) _ ?_
    intro a ha
    rw [int64_natCast (exactOffset_fits h fits (mem_cons_of_mem _ ha)).2.2]
    exact Int.ofNat_le
  obtain ⟨-, floor, ceil⟩ := walk_floor_of_offsets (ascending h) 0 (e := e) (Nat.zero_le _)
  rw [lastWhere_offsets, ← hpick, Nat.zero_add, ← startOf_eq_walk (ascending h) rfl] at floor ceil
  refine ⟨pick.1, ⟨hsched, hoff ▸ hle, ?_, ?_⟩, ?_⟩
  · intro s hs hstarted
    obtain ⟨a, ha, rfl⟩ : ∃ a ∈ (genesisSegment cfg, 0) :: boundaries cfg, a.1 = s := by
      refine List.mem_map.mp ?_
      rwa [map_cons, boundaries_map_fst]
    rw [← (exactOffset_fits h fits ha).2.1] at hstarted
    exact (hlast a ha hstarted).imp_left (congrArg Prod.fst)
  · rw [← hoff]
    exact (exactSlotAt_eq_iff h).mpr ⟨floor, ceil⟩
  · intro genesis
    have hsub : timeSub (genesis + e) genesis = e := by
      unfold timeSub
      omega
    have hspan : int64 (e - (pick.2 : Int)) = ((e - pick.2 : Nat) : Int) := by
      rw [int64_of_range] <;> omega
    unfold slotsAt
    rw [if_neg (by omega)]
    simp only [hsub, hcode, hspan]
    rw [← hoff]

theorem slotsAt_eq (h : 0 < slotDurationMillis cfg) (fits : OffsetsFit cfg)
    (durations : DurationsFit cfg) (genesis : Int) {e : Nat} (he : e < 2 ^ 63) :
    slotsAt cfg genesis (genesis + e) = some (exactSlotAt cfg e) := by
  obtain ⟨s, place, hcode⟩ := slotsAt_inProgress h fits he
  have hpos := durationMillis_pos h place.mem
  have hbound := exactSlotAt_le h e
  have hexact := place.exact
  rw [hcode genesis]
  by_cases short : s.durationMillis * 1000000 < 2 ^ 63
  · rw [segmentDuration_eq short, if_neg (by omega), ← Int.ofNat_tdiv, int64_natCast,
      int64ToUint64_natCast, add64_of_lt, hexact] <;> omega
  -- past the last boundary no further slot starts at a representable time
  · obtain ⟨hne, hlong⟩ := (durations s place.mem).resolve_left short
    have hquot : (e - slotOffset cfg s.startSlot) / (s.durationMillis * 1000000) = 0 :=
      Nat.div_eq_of_lt (by omega)
    have hzero : ((e - slotOffset cfg s.startSlot : Nat) : Int).tdiv (segmentDuration s) = 0 := by
      refine (tdiv_eq_zero_iff _ _).mpr (.inr ?_)
      rw [Int.natAbs_natCast]
      omega
    rw [if_neg hne, hzero, hexact, hquot]
    have : add64 s.startSlot (int64ToUint64 (int64 0)) = s.startSlot := by
      simpa [int64, int64ToUint64] using add64_of_lt (a := s.startSlot) (b := 0) (by omega)
    rw [this, Nat.add_zero]

end Exact

end LightChain.SlotTime

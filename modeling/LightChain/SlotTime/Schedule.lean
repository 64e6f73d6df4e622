import LightChain.Config.Params
import LightChain.Library.MachineInt
import LightChain.Library.PiecewiseClock

/-!
# The slot-duration schedule and the slot clock

`SlotTimeSchedule` and the four functions of the `slots` package that walk it. An
instant is a number of nanoseconds, a duration an `int64` number of nanoseconds:
every product and sum of durations wraps, and subtracting instants saturates.
`none` is an error of `startTime` and a panic of `slotsAt`, whose only partial operation is the integer division.
-/
namespace LightChain.SlotTime
open Library

def millisecond : Int := 1000000

/-- `Duration.Milliseconds`. -/
def milliseconds (d : Int) : Int := d.tdiv millisecond

structure SlotTimeSegment where
  startSlot : Nat
  durationMillis : Nat
deriving DecidableEq, Repr

variable (cfg : BeaconChainConfig)

def slotDurationMillis : Nat :=
  if cfg.slotDurationMilliseconds > 0 then cfg.slotDurationMilliseconds
  else mul64 cfg.secondsPerSlot 1000

def genesisSegment : SlotTimeSegment := ⟨0, slotDurationMillis cfg⟩

def keepsEntry (last s : SlotTimeSegment) : Bool :=
  !(s.startSlot == 0 || s.durationMillis == 0) && !(s.startSlot ≤ last.startSlot)

def scheduledSegments (last : SlotTimeSegment) : List SlotTimeSegment → List SlotTimeSegment
  | [] => []
  | s :: entries =>
    if keepsEntry last s then s :: scheduledSegments s entries else scheduledSegments last entries

def forkSegments : List SlotTimeSegment :=
  scheduledSegments (genesisSegment cfg)
    [⟨cfg.slotTimeForkOneSlot, cfg.slotTimeForkOneMillis⟩,
     ⟨cfg.slotTimeForkTwoSlot, cfg.slotTimeForkTwoMillis⟩]

def slotTimeSchedule : List SlotTimeSegment :=
  genesisSegment cfg :: forkSegments cfg

/-- The later segments with the duration from genesis at which each begins. -/
def offsetsAfter (prev : SlotTimeSegment) (off : Int) :
    List SlotTimeSegment → List (SlotTimeSegment × Int)
  | [] => []
  | s :: rest =>
    let span := sub64 s.startSlot prev.startSlot
    let off' := int64 (off + int64 (int64 (int64 span * int64 prev.durationMillis) * millisecond))
    (s, off') :: offsetsAfter s off' rest

def segmentOffsets : List (SlotTimeSegment × Int) :=
  offsetsAfter (genesisSegment cfg) 0 (forkSegments cfg)

def segmentDuration (s : SlotTimeSegment) : Int :=
  int64 (int64 s.durationMillis * millisecond)

def slotDurationAt (slot : Nat) : Int :=
  segmentDuration (lastWhere (fun s : SlotTimeSegment => s.startSlot ≤ slot)
    (genesisSegment cfg) (forkSegments cfg))

def startTime (genesis : Int) (slot : Nat) : Option Int :=
  let (s, off) := lastWhere (fun a : SlotTimeSegment × Int => a.1.startSlot ≤ slot)
    (genesisSegment cfg, 0) (segmentOffsets cfg)
  let within := sub64 slot s.startSlot
  match safeMul64 within s.durationMillis with
  | none => none
  | some ms => some (genesis + int64 (off + int64 (int64 ms * millisecond)))

/-- `Time.Sub` returns the nearest representable duration. -/
def timeSub (t u : Int) : Int := max (-2 ^ 63) (min (t - u) (2 ^ 63 - 1))

/-- `At`, the slot in progress at an instant. -/
def slotsAt (genesis tm : Int) : Option Nat :=
  if tm < genesis then some 0
  else
    let elapsed := timeSub tm genesis
    let (s, off) := lastWhere (fun a : SlotTimeSegment × Int => a.2 ≤ elapsed)
      (genesisSegment cfg, 0) (segmentOffsets cfg)
    let d := segmentDuration s
    if d = 0 then none
    else some (add64 s.startSlot (int64ToUint64 (int64 ((int64 (elapsed - off)).tdiv d))))

def sinceSlotStart (s : Nat) (genesis timestamp : Int) : Option Int :=
  match startTime cfg genesis s with
  | none => none
  | some limit => if timestamp < limit then none else some (timeSub timestamp limit)

theorem scheduledSegments_ascending (last : SlotTimeSegment) (entries : List SlotTimeSegment) :
    (last :: scheduledSegments last entries).Pairwise (fun a b => a.startSlot < b.startSlot) ∧
      ∀ s ∈ scheduledSegments last entries, s ∈ entries ∧ 0 < s.durationMillis := by
  induction entries generalizing last with
  | nil => simp [scheduledSegments]
  | cons s entries ih =>
    unfold scheduledSegments
    split_ifs with keep
    · obtain ⟨order, kept⟩ := ih s
      simp only [keepsEntry, Bool.and_eq_true, Bool.not_eq_true', Bool.or_eq_false_iff,
        beq_eq_false_iff_ne, decide_eq_false_iff_not, not_le] at keep
      refine ⟨List.pairwise_cons.mpr ⟨?_, order⟩, ?_⟩
      · intro a ha
        rcases List.mem_cons.mp ha with rfl | ha
        · exact keep.2
        · exact keep.2.trans (List.rel_of_pairwise_cons order ha)
      · intro a ha
        rcases List.mem_cons.mp ha with rfl | ha
        · exact ⟨by simp, Nat.pos_of_ne_zero keep.1.2⟩
        · exact ⟨List.mem_cons_of_mem _ (kept a ha).1, (kept a ha).2⟩
    · obtain ⟨order, kept⟩ := ih last
      exact ⟨order, fun a ha => ⟨List.mem_cons_of_mem _ (kept a ha).1, (kept a ha).2⟩⟩

/-- Entries that are disabled, or out of order, do not reach the schedule. -/
theorem forkSegments_ascending :
    (slotTimeSchedule cfg).Pairwise (fun a b => a.startSlot < b.startSlot) ∧
      ∀ s ∈ forkSegments cfg, s.startSlot < 2 ^ 64 ∧ 0 < s.durationMillis := by
  obtain ⟨order, kept⟩ := scheduledSegments_ascending (genesisSegment cfg)
    [⟨cfg.slotTimeForkOneSlot, cfg.slotTimeForkOneMillis⟩,
     ⟨cfg.slotTimeForkTwoSlot, cfg.slotTimeForkTwoMillis⟩]
  refine ⟨order, fun s hs => ⟨?_, (kept s hs).2⟩⟩
  have := (kept s hs).1
  simp only [List.mem_cons, List.not_mem_nil, or_false] at this
  rcases this with rfl | rfl
  · exact cfg.slotTimeForkOneSlot_lt
  · exact cfg.slotTimeForkTwoSlot_lt

end LightChain.SlotTime

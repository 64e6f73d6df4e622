import LightChain.SlotTime.Clock

/-!
# When the slot clock is a Galois pair

`SlotClock` collects what callers rely on: `slotsAt` inverts `startTime`, slots last
their scheduled length, `slotsAt` is monotone and is the floor of `startTime`, and the
slot in progress has always started. It holds exactly when no boundary of the schedule
overflows. An overflowing boundary wraps to an offset that `slotsAt` takes for a boundary
already passed, so the slots before the boundary lose their timing.
-/
namespace LightChain.SlotTime
open Library

/-- The relation between `startTime` and `slotsAt`, for slots and instants whose offset
from genesis is a representable number of nanoseconds. -/
structure SlotClock (cfg : BeaconChainConfig) : Prop where
  slotsAt_startTime : ∀ genesis slot, slotOffset cfg slot < 2 ^ 63 →
    ∃ t, startTime cfg genesis slot = some t ∧ slotsAt cfg genesis t = some slot
  startTime_succ : ∀ genesis slot, slotOffset cfg (slot + 1) < 2 ^ 63 →
    ∃ t t', startTime cfg genesis slot = some t ∧ startTime cfg genesis (slot + 1) = some t' ∧
      t' - t = slotDurationAt cfg slot
  slotsAt_mono : ∀ genesis t t', t ≤ t' → t' - genesis < 2 ^ 63 →
    ∃ s s', slotsAt cfg genesis t = some s ∧ slotsAt cfg genesis t' = some s' ∧ s ≤ s'
  slotsAt_iff : ∀ genesis t slot, genesis ≤ t → t - genesis < 2 ^ 63 →
    slotOffset cfg slot < 2 ^ 63 →
    (slotsAt cfg genesis t = some slot ↔
      (∃ b, startTime cfg genesis slot = some b ∧ b ≤ t) ∧
      (slotOffset cfg (slot + 1) < 2 ^ 63 →
        ∃ b, startTime cfg genesis (slot + 1) = some b ∧ t < b))
  sinceSlotStart_ok : ∀ genesis t, genesis ≤ t → t - genesis < 2 ^ 63 →
    ∃ s d, slotsAt cfg genesis t = some s ∧ sinceSlotStart cfg s genesis t = some d

variable {cfg : BeaconChainConfig}

theorem slotsAt_of_lt {genesis t : Int} (h : t < genesis) : slotsAt cfg genesis t = some 0 :=
  if_pos h

theorem exists_elapsed {genesis t : Int} (h : genesis ≤ t) (fits : t - genesis < 2 ^ 63) :
    ∃ e : Nat, t = genesis + e ∧ e < 2 ^ 63 :=
  ⟨(t - genesis).toNat, by omega, by omega⟩

section

variable (h : 0 < slotDurationMillis cfg)

include h

theorem startTime_floor (genesis : Int) (slot e : Nat) (he : e < 2 ^ 63)
    (fits : slotOffset cfg slot < 2 ^ 63) :
    exactSlotAt cfg e = slot ↔
      (∃ b, startTime cfg genesis slot = some b ∧ b ≤ genesis + e) ∧
      (slotOffset cfg (slot + 1) < 2 ^ 63 →
        ∃ b, startTime cfg genesis (slot + 1) = some b ∧ genesis + e < b) := by
  rw [exactSlotAt_eq_iff h, startTime_eq h genesis fits]
  constructor
  · rintro ⟨lo, hi⟩
    refine ⟨⟨_, rfl, by omega⟩, fun next => ⟨_, startTime_eq h genesis next, by omega⟩⟩
  · rintro ⟨⟨b, hb, lo⟩, hi⟩
    cases hb
    refine ⟨by omega, ?_⟩
    by_contra hge
    obtain ⟨b, hb, lt⟩ := hi (by omega)
    rw [startTime_eq h genesis (by omega)] at hb
    cases hb
    omega

theorem slotClock_of_fits (fits : OffsetsFit cfg) (durations : DurationsFit cfg) :
    SlotClock cfg where
  slotsAt_startTime genesis slot hs := by
    refine ⟨_, startTime_eq h genesis hs, ?_⟩
    rw [slotsAt_eq h fits durations genesis hs]
    exact congrArg some
      ((exactSlotAt_eq_iff h).mpr ⟨le_rfl, slotOffset_strictMono h (Nat.lt_succ_self slot)⟩)
  startTime_succ genesis slot hs := by
    have next := slotDurationAt_eq hs
    have order : slotOffset cfg slot < slotOffset cfg (slot + 1) :=
      slotOffset_strictMono h (Nat.lt_succ_self slot)
    refine ⟨_, _, startTime_eq h genesis (by omega), startTime_eq h genesis hs, by omega⟩
  slotsAt_mono genesis t t' hle hfit := by
    by_cases before : t' < genesis
    · exact ⟨0, 0, slotsAt_of_lt (by omega), slotsAt_of_lt before, le_rfl⟩
    obtain ⟨e', rfl, he'⟩ := exists_elapsed (not_lt.mp before) hfit
    by_cases early : t < genesis
    · exact ⟨0, _, slotsAt_of_lt early, slotsAt_eq h fits durations genesis he', Nat.zero_le _⟩
    obtain ⟨e, rfl, he⟩ := exists_elapsed (t := t) (not_lt.mp early) (by omega)
    exact ⟨_, _, slotsAt_eq h fits durations genesis he, slotsAt_eq h fits durations genesis he',
      exactSlotAt_mono h (by omega)⟩
  slotsAt_iff genesis t slot hle hfit hs := by
    obtain ⟨e, rfl, he⟩ := exists_elapsed hle hfit
    rw [slotsAt_eq h fits durations genesis he, ← startTime_floor h genesis slot e he hs, Option.some.injEq]
  sinceSlotStart_ok genesis t hle hfit := by
    obtain ⟨e, rfl, he⟩ := exists_elapsed hle hfit
    have started : slotOffset cfg (exactSlotAt cfg e) ≤ e :=
      ((exactSlotAt_eq_iff h).mp rfl).1
    have since : sinceSlotStart cfg (exactSlotAt cfg e) genesis (genesis + e) = some
        (timeSub (genesis + e) (genesis + slotOffset cfg (exactSlotAt cfg e))) := by
      simp only [sinceSlotStart, startTime_eq h genesis (started.trans_lt he)]
      rw [if_neg (by omega)]
    exact ⟨_, _, slotsAt_eq h fits durations genesis he, since⟩

/-! ## An overflowing boundary breaks the clock -/

theorem SlotClock.slotsAt_exact (clock : SlotClock cfg) {e : Nat} (he : e < 2 ^ 63) :
    slotsAt cfg 0 e = some (exactSlotAt cfg e) := by
  have started : slotOffset cfg (exactSlotAt cfg e) ≤ e :=
    ((exactSlotAt_eq_iff h).mp rfl).1
  have hs := started.trans_lt he
  rw [clock.slotsAt_iff 0 e (exactSlotAt cfg e) (by omega) (by omega) hs]
  simpa using (startTime_floor h 0 (exactSlotAt cfg e) e he hs).mp rfl

theorem exists_last_offset (overflow : ¬OffsetsFit cfg) :
    ∃ s init, s ∈ forkSegments cfg ∧ 2 ^ 63 ≤ slotOffset cfg s.startSlot ∧
      segmentOffsets cfg = init ++ [(s, int64 (slotOffset cfg s.startSlot))] := by
  obtain ⟨s, hs, hover⟩ : ∃ s ∈ forkSegments cfg, 2 ^ 63 ≤ slotOffset cfg s.startSlot := by
    by_contra hall
    exact overflow fun s hs => not_le.mp fun hle => hall ⟨s, hs, hle⟩
  have hfst := boundaries_map_fst cfg
  have horder : (forkSegments cfg).Pairwise (fun a b => a.startSlot < b.startSlot) :=
    (forkSegments_ascending cfg).1.of_cons
  rcases List.eq_nil_or_concat (boundaries cfg) with hnil | ⟨init, z, hz⟩
  · rw [hnil, List.map_nil] at hfst
    rw [← hfst] at hs
    cases hs
  · have hmem : z ∈ boundaries cfg := by simp [hz]
    have hfork : forkSegments cfg = init.map Prod.fst ++ [z.1] := by
      rw [← hfst, hz]
      simp
    have hle : s.startSlot ≤ z.1.startSlot := by
      rw [hfork] at hs horder
      rcases List.mem_append.mp hs with hs | hs
      · exact ((List.pairwise_append.mp horder).2.2 s hs z.1 (by simp)).le
      · exact (congrArg SlotTimeSegment.startSlot (List.mem_singleton.mp hs)).le
    refine ⟨z.1, init.map (fun a => (a.1, int64 a.2)), mem_forkSegments hmem, ?_, ?_⟩
    · exact hover.trans ((slotOffset_strictMono h).monotone hle)
    · rw [segmentOffsets_eq, hz, ← exactOffset_eq h z hmem]
      simp

end

/-- Once the last boundary has wrapped to `w`, every instant from `w` on is placed in the
last segment. -/
theorem slotsAt_last {s : SlotTimeSegment} {w : Int} {init : List (SlotTimeSegment × Int)}
    (hseg : segmentOffsets cfg = init ++ [(s, w)]) {e : Nat} (he : e < 2 ^ 63) (hw : w ≤ e) :
    slotsAt cfg 0 e = if segmentDuration s = 0 then none else some (add64 s.startSlot
      (int64ToUint64 (int64 ((int64 (e - w)).tdiv (segmentDuration s))))) := by
  have hsub : timeSub e 0 = e := by
    unfold timeSub
    omega
  have hlast : lastWhere (fun a : SlotTimeSegment × Int => a.2 ≤ (e : Int))
      (genesisSegment cfg, 0) (init ++ [(s, w)]) = (s, w) := by simp [lastWhere, hw]
  unfold slotsAt
  rw [if_neg (by omega)]
  simp only [hsub, hseg, hlast]

theorem exactSlotAt_succ (h : 0 < slotDurationMillis cfg) (e : Nat) :
    exactSlotAt cfg (e + 1) = exactSlotAt cfg e ∨
      exactSlotAt cfg (e + 1) = exactSlotAt cfg e + 1 := by
  obtain ⟨lo, hi⟩ := (exactSlotAt_eq_iff h (e := e)).mp rfl
  have hnext := slotOffset_strictMono h (Nat.lt_succ_self (exactSlotAt cfg e + 1))
  have hge := (slotOffset_le_iff h (exactSlotAt cfg e) (e + 1)).mp (by omega)
  have hlt := (slotOffset_le_iff h (exactSlotAt cfg e + 1).succ (e + 1)).not.mp (by omega)
  omega

theorem segmentDuration_even (s : SlotTimeSegment) : 2 ∣ segmentDuration s := by
  have : segmentDuration s = int64 (s.durationMillis * 1000000) := by
    simp [segmentDuration, millisecond]
  rw [this, int64, Int.bmod_def]
  omega

theorem quotient_bound {n d : Int} (hd : 2 ≤ d.natAbs) (hn : n.natAbs ≤ 2 ^ 63) :
    (n.tdiv d).natAbs ≤ 2 ^ 62 := by
  rw [Int.natAbs_tdiv]
  calc n.natAbs / d.natAbs ≤ 2 ^ 63 / 2 := Nat.div_le_div hn hd (by norm_num)
    _ = 2 ^ 62 := by norm_num

theorem add64_int64 {S : Nat} {q : Int} (hq : q.natAbs ≤ 2 ^ 62) :
    ((add64 S (int64ToUint64 (int64 q)) : Nat) : Int) = (S + q) % 2 ^ 64 := by
  rw [int64_of_range (by omega) (by omega)]
  unfold add64 int64ToUint64 uint64
  omega

theorem lt_of_add64_eq {S n : Nat} {d : Int} (hn : n < 2 ^ 63) (even : 2 ∣ d)
    (hd : d ≠ 0) (same : S = add64 S (int64ToUint64 (int64 ((n : Int).tdiv d)))) :
    n < d.natAbs := by
  have hq := quotient_bound (n := n) (d := d) (by omega) (by omega)
  have hsum := add64_int64 (S := S) hq
  rw [← same] at hsum
  have := (tdiv_eq_zero_iff n d).mp (by omega)
  omega

section Wrapped

/-! The exact clock cannot agree with a last segment whose offset `w` has wrapped. The
hypothesis `agrees` is what `slotsAt` computes there, `d` the wrapped slot length. -/

variable {s : SlotTimeSegment} {d w : Int} (h : 0 < slotDurationMillis cfg)
  (agrees : ∀ e : Nat, e < 2 ^ 63 → w ≤ e → exactSlotAt cfg e =
    add64 s.startSlot (int64ToUint64 (int64 ((int64 (e - w)).tdiv d))))

include h agrees

/-- An instant placed less than a slot length from the boundary is placed in its slot. -/
theorem boundary_le (hstart : s.startSlot < 2 ^ 64)
    {e : Nat} (he : e < 2 ^ 63) (hw : w ≤ e) (near : (int64 (e - w)).natAbs < d.natAbs) :
    slotOffset cfg s.startSlot < 2 ^ 63 := by
  have hslot := agrees e he hw
  rw [(tdiv_eq_zero_iff _ _).mpr (.inr near)] at hslot
  have hzero : add64 s.startSlot (int64ToUint64 (int64 0)) = s.startSlot := by
    simpa [int64, int64ToUint64] using add64_of_lt (b := 0) hstart
  have := (slotOffset_le_iff h s.startSlot e).mpr (by omega)
  omega

/-- A negative wrapped offset makes the elapsed time overflow, and the slot jumps. Only the
longest negative length hides the jump, and then genesis is placed at the boundary. -/
theorem wrapped_neg (hd : 2 ≤ d.natAbs) (hd' : d.natAbs ≤ 2 ^ 63) (hw : -2 ^ 63 < w)
    (hw' : w < 0) : (-w).natAbs < d.natAbs := by
  obtain ⟨e, he⟩ : ∃ e : Nat, (e : Int) + 1 - w = 2 ^ 63 := ⟨(2 ^ 63 + w - 1).toNat, by omega⟩
  have hbefore : int64 (e - w) = 2 ^ 63 - 1 := by
    rw [int64_of_range] <;> omega
  have hafter : int64 (((e + 1 : Nat) : Int) - w) = -2 ^ 63 := by
    have : ((e + 1 : Nat) : Int) - w = 2 ^ 63 := by omega
    rw [this]
    decide
  have hslot := agrees e (by omega) (by omega)
  have hslot' := agrees (e + 1) (by omega) (by omega)
  rw [hbefore] at hslot
  rw [hafter] at hslot'
  have hq := quotient_bound (n := 2 ^ 63 - 1) hd (by norm_num)
  have hq' := quotient_bound (n := -2 ^ 63) hd (by norm_num)
  have hone := add64_int64 (S := s.startSlot) hq
  have htwo := add64_int64 (S := s.startSlot) hq'
  rw [← hslot] at hone
  rw [← hslot'] at htwo
  have hsmall := exactSlotAt_le h e
  have hstep := exactSlotAt_succ h e
  have hjump : (2 ^ 63 - 1 : Int).tdiv d = 0 := by
    obtain ⟨c, hc⟩ : ∃ c : Nat, c = d.natAbs := ⟨_, rfl⟩
    have hlow : 0 ≤ (2 ^ 63 - 1 : Int).tdiv c := Int.tdiv_nonneg (by norm_num) (by omega)
    have hnonneg : 0 ≤ (2 ^ 63 : Int).tdiv c := Int.tdiv_nonneg (by norm_num) (by omega)
    have hhigh : (2 ^ 63 : Int).tdiv c ≠ 0 := by
      rw [Ne, tdiv_eq_zero_iff]
      omega
    rcases Int.natAbs_eq d with hpos | hneg
    · rw [hpos, ← hc, Int.neg_tdiv] at htwo hq'
      rw [hpos, ← hc] at hone hq ⊢
      omega
    · rw [hneg, ← hc, Int.neg_tdiv, Int.tdiv_neg, neg_neg] at htwo hq'
      rw [hneg, ← hc, Int.tdiv_neg] at hone hq ⊢
      omega
  have := (tdiv_eq_zero_iff _ _).mp hjump
  omega

end Wrapped

theorem offsetsFit_of_clock (h : 0 < slotDurationMillis cfg) (clock : SlotClock cfg) :
    OffsetsFit cfg := by
  by_contra overflow
  obtain ⟨s, init, hs, hover, hseg⟩ := exists_last_offset h overflow
  have hstart := ((forkSegments_ascending cfg).2 s hs).1
  have hcode : ∀ e : Nat, e < 2 ^ 63 → int64 (slotOffset cfg s.startSlot) ≤ e →
      segmentDuration s ≠ 0 ∧ exactSlotAt cfg e = add64 s.startSlot (int64ToUint64 (int64
        ((int64 (e - int64 (slotOffset cfg s.startSlot))).tdiv (segmentDuration s)))) := by
    intro e he hw
    have := slotsAt_last hseg he hw
    rw [clock.slotsAt_exact h he] at this
    split_ifs at this with hzero
    exact ⟨hzero, Option.some.inj this⟩
  have hhi := int64_lt (slotOffset cfg s.startSlot)
  have hlo := le_int64 (slotOffset cfg s.startSlot)
  generalize int64 (slotOffset cfg s.startSlot) = w at hcode hhi hlo
  have agrees := fun e he hw => (hcode e he hw).2
  have heven := segmentDuration_even s
  have hrange := le_int64 (int64 s.durationMillis * millisecond)
  have hrange' := int64_lt (int64 s.durationMillis * millisecond)
  rw [← segmentDuration] at hrange hrange'
  have hne : segmentDuration s ≠ 0 := (hcode (2 ^ 63 - 1) (by norm_num) (by omega)).1
  by_cases hw : 0 ≤ w
  · have := boundary_le h agrees hstart (e := w.toNat) (by omega) (by omega) <| by
      rw [Int.toNat_of_nonneg hw, sub_self]
      simpa [int64] using hne
    omega
  · by_cases hmin : w = -2 ^ 63
    · subst hmin
      have := boundary_le h agrees hstart (e := 2 ^ 63 - 1) (by norm_num) (by omega) <| by
        have : int64 (((2 ^ 63 - 1 : Nat) : Int) - -2 ^ 63) = -1 := by decide
        rw [this]
        omega
      omega
    · have near := wrapped_neg h agrees (by omega) (by omega) (by omega) (by omega)
      have := boundary_le h agrees hstart (e := 0) (by norm_num) (by omega) <| by
        rw [int64_of_range (by omega) (by omega)]
        simpa using near
      omega

/-- A length that is no `time.Duration` cannot be followed by another boundary, and its
wrapped value decides whether the boundary's slot is the last one. -/
theorem durationsFit_of_clock (h : 0 < slotDurationMillis cfg) (clock : SlotClock cfg)
    (fits : OffsetsFit cfg) : DurationsFit cfg := by
  intro s hs
  by_cases short : s.durationMillis * 1000000 < 2 ^ 63
  · exact .inl short
  have hoff : slotOffset cfg s.startSlot < 2 ^ 63 := by
    rcases List.mem_cons.mp hs with rfl | hs
    · exact (by norm_num : 0 < 2 ^ 63)
    · exact fits s hs
  have hnext := slotOffset_succ cfg s.startSlot
  rw [segmentOf_startSlot hs] at hnext
  obtain ⟨e, he⟩ : ∃ e, e = 2 ^ 63 - 1 := ⟨_, rfl⟩
  obtain ⟨s', place, hcode⟩ := slotsAt_inProgress h fits (e := e) (by omega)
  obtain rfl : s = s' := by
    refine (place.last s hs (by omega)).resolve_right fun hlt => ?_
    have := (slotOffset_strictMono h).monotone (show s.startSlot + 1 ≤ s'.startSlot from hlt)
    have := place.started
    omega
  have hslot := hcode 0
  have hexact := place.exact
  rw [Nat.div_eq_of_lt (by omega), Nat.add_zero] at hexact
  rw [zero_add, clock.slotsAt_exact h (by omega), hexact] at hslot
  split_ifs at hslot with hzero
  have := lt_of_add64_eq (by omega) (segmentDuration_even s) hzero (Option.some.inj hslot)
  exact .inr ⟨hzero, by omega⟩

/-- The clock is a Galois pair exactly when every boundary and every slot length is
representable. -/
theorem slotClock_iff (h : 0 < slotDurationMillis cfg) :
    SlotClock cfg ↔ OffsetsFit cfg ∧ DurationsFit cfg := by
  constructor
  · intro clock
    have fits := offsetsFit_of_clock h clock
    exact ⟨fits, durationsFit_of_clock h clock fits⟩
  · rintro ⟨fits, durations⟩
    exact slotClock_of_fits h fits durations

/-- A chain that shortens its slots at slot 4 and again at slot 9. -/
def twoChanges : BeaconChainConfig :=
  { slotTimeForkOneSlot := 4, slotTimeForkOneMillis := 6000,
    slotTimeForkTwoSlot := 9, slotTimeForkTwoMillis := 2000 }

theorem slotClock_twoChanges : SlotClock twoChanges :=
  (slotClock_iff (by decide)).mpr ⟨by decide, by decide +kernel⟩

/-- A chain that schedules its first slot-length change at the last slot of all. -/
def lastSlotFork : BeaconChainConfig :=
  { slotTimeForkOneSlot := 2 ^ 64 - 1, slotTimeForkOneMillis := 2000 }

/-- The boundary wraps to twelve seconds before genesis, so genesis is placed in slot 5. -/
theorem lastSlotFork_genesis :
    startTime lastSlotFork 0 0 = some 0 ∧ slotsAt lastSlotFork 0 0 = some 5 ∧
      ¬SlotClock lastSlotFork := by
  have hslot : slotsAt lastSlotFork 0 0 = some 5 := by decide +kernel
  have hstart : startTime lastSlotFork 0 0 = some 0 := by decide +kernel
  refine ⟨hstart, hslot, fun clock => ?_⟩
  obtain ⟨t, ht, hat⟩ := clock.slotsAt_startTime 0 0 (by decide +kernel)
  rw [hstart] at ht
  cases ht
  rw [hslot] at hat
  cases hat

end LightChain.SlotTime

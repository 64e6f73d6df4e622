import LightChain.Committees.Shuffle
import LightChain.Epoch.State
import LightChain.Library.Fallible
import LightChain.Library.History
import LightChain.Library.Split

/-!
# Committees of a slot

`BeaconCommitteeFromState` asks the committee cache first. On a miss it collects the active
validators, which fills the cache on the way, and asks again; `ComputeCommittee` is what
remains if the cache could not be filled. Both ways cut the shuffled list at the offsets of
`SplitOffset`, an unchecked `uint64` product divided by the number of committees.

`committees_partition` is the main result. A committee is a slice expression, so bounds in
the wrong order stop the program: `sliceBounds` is that failure.
-/
namespace LightChain.Committees
open Library

inductive CommitteeError where
  | addOverflow
  | slotOverflow
  | indexOutOfRange
  | requestedIndex
  | sliceBounds
  | noActiveIndices
  | shuffle (cause : ShuffleError)
  | committeeCache (cause : CommitteeError)
  | activeIndices (cause : CommitteeError)
  | indexOffset (cause : CommitteeError)
deriving DecidableEq, Repr

def CommitteeError.message : CommitteeError → String
  | .addOverflow => "addition overflows"
  | .slotOverflow => "multiplication overflows"
  | .indexOutOfRange => "index out of range"
  | .requestedIndex => "requested index out of bound"
  | .sliceBounds => "slice bounds out of range"
  | .noActiveIndices => "no active validator indices"
  | .shuffle e => e.message
  | .committeeCache e => "could not interface with committee cache: " ++ e.message
  | .activeIndices e => "could not get active indices: " ++ e.message
  | .indexOffset e => "could not add calculate index offset: " ++ e.message

structure CachedCommittees where
  shuffledIndices : List Nat
  committeeCount : Nat
  sortedIndices : List Nat
deriving DecidableEq, Repr

/-- The committee cache, keyed by the seed. -/
abbrev Cache := Bytes32 → Option CachedCommittees

section Model

variable (hash : Hash) (cfg : CommitteeConfig)

def splitOffset (listSize chunks index : Nat) : Nat := mul64 listSize index / chunks

def slotCommitteeCount (activeValidatorCount : Nat) : Nat :=
  let committeesPerSlot := activeValidatorCount / cfg.slotsPerEpoch / cfg.targetCommitteeSize
  if cfg.maxCommitteesPerSlot < committeesPerSlot then cfg.maxCommitteesPerSlot
  else if committeesPerSlot = 0 then 1
  else committeesPerSlot

/-- `Slot.Mul`, which panics on overflow. -/
def slotMul (slot x : Nat) : Except CommitteeError Nat :=
  match safeMul64 slot x with
  | some product => .ok product
  | none => .error .slotOverflow

def committeeOffset (committeesPerSlot slot committeeIndex : Nat) : Except CommitteeError Nat := do
  let first ← slotMul (slot % cfg.slotsPerEpoch) committeesPerSlot
  match safeAdd64 committeeIndex first with
  | some offset => .ok offset
  | none => .error .addOverflow

def slice (xs : List Nat) (start stop : Nat) : Except CommitteeError (List Nat) :=
  if start ≤ stop ∧ stop ≤ xs.length then .ok (xs.extract start stop) else .error .sliceBounds

def computeCommittee (indices : List Nat) (seed : Bytes32) (index count : Nat) :
    Except CommitteeError (List Nat) :=
  let validatorCount := indices.length
  let start := splitOffset validatorCount count index
  let stop := splitOffset validatorCount count (add64 index 1)
  if validatorCount < start ∨ validatorCount < stop then .error .indexOutOfRange
  else do
    let shuffledList ← (unshuffleList hash seed cfg indices).mapError .shuffle
    slice shuffledList start stop

/-- The part of `BeaconCommittee` after a cache miss. -/
def directCommittee (indices : List Nat) (seed : Bytes32) (slot committeeIndex : Nat) :
    Except CommitteeError (List Nat) := do
  let committeesPerSlot := slotCommitteeCount cfg indices.length
  let index ← (committeeOffset cfg committeesPerSlot slot committeeIndex).mapError .indexOffset
  computeCommittee hash cfg indices seed index (mul64 committeesPerSlot cfg.slotsPerEpoch)

/-- `CommitteeCache.Committee` for an entry. -/
def CachedCommittees.committee (item : CachedCommittees) (slot index : Nat) :
    Except CommitteeError (List Nat) := do
  let committeeCountPerSlot :=
    if 1 < item.committeeCount / cfg.slotsPerEpoch then item.committeeCount / cfg.slotsPerEpoch
    else 1
  let indexOffset ← committeeOffset cfg committeeCountPerSlot slot index
  let start := splitOffset item.shuffledIndices.length item.committeeCount indexOffset
  let stop := splitOffset item.shuffledIndices.length item.committeeCount (add64 indexOffset 1)
  if item.shuffledIndices.length < stop ∨ stop < start then .error .requestedIndex
  else slice item.shuffledIndices start stop

/-- The entry that `UpdateCommitteeCache` stores for the active validators. -/
def cacheEntry (active : List Nat) (seed : Bytes32) : Except CommitteeError CachedCommittees := do
  let shuffledIndices ← (unshuffleList hash seed cfg active).mapError .shuffle
  let committeeCount ← slotMul cfg.slotsPerEpoch (slotCommitteeCount cfg shuffledIndices.length)
  return ⟨shuffledIndices, committeeCount, shuffledIndices.mergeSort (· ≤ ·)⟩

/-- `UpdateCommitteeCache`: an entry that is there stays. -/
def updateCommitteeCache (cache : Cache) (active : List Nat) (seed : Bytes32) :
    Except CommitteeError Cache :=
  match cache seed with
  | some _ => .ok cache
  | none => do
    let item ← cacheEntry hash cfg active seed
    return Function.update cache seed (some item)

/-- `ActiveValidatorIndices`: a failed update of the cache is only logged. -/
def activeValidatorIndices (cache : Cache) (active : List Nat) (seed : Bytes32) :
    Except CommitteeError (List Nat × Cache) :=
  match cache seed with
  | some item => .ok (item.sortedIndices, cache)
  | none =>
    if active = [] then .error .noActiveIndices
    else match updateCommitteeCache hash cfg cache active seed with
      | .ok cache => .ok (active, cache)
      | .error _ => .ok (active, cache)

def beaconCommittee (cache : Cache) (indices : List Nat) (seed : Bytes32)
    (slot committeeIndex : Nat) : Except CommitteeError (List Nat) :=
  match cache seed with
  | some item => (item.committee cfg slot committeeIndex).mapError .committeeCache
  | none => directCommittee hash cfg indices seed slot committeeIndex

/-- `BeaconCommitteeFromState`, for the active validators and the attester seed of the state in
the slot's epoch. -/
def beaconCommitteeFromState (cache : Cache) (active : List Nat) (seed : Bytes32)
    (slot committeeIndex : Nat) : Except CommitteeError (List Nat) :=
  match cache seed with
  | some item => (item.committee cfg slot committeeIndex).mapError .committeeCache
  | none => do
    let (indices, cache) ←
      (activeValidatorIndices hash cfg cache active seed).mapError .activeIndices
    beaconCommittee hash cfg cache indices seed slot committeeIndex

end Model

section Partition

variable {hash : Hash} {cfg : CommitteeConfig} {active shuffledList : List Nat} {seed : Bytes32}

theorem slotCommitteeCount_pos (cfg : CommitteeConfig) (n : Nat) : 0 < slotCommitteeCount cfg n := by
  have := cfg.maxCommitteesPerSlot_pos
  simp only [slotCommitteeCount]
  generalize n / cfg.slotsPerEpoch / cfg.targetCommitteeSize = committees
  split_ifs <;> omega

def committeeCount (cfg : CommitteeConfig) (n : Nat) : Nat :=
  slotCommitteeCount cfg n * cfg.slotsPerEpoch

theorem committeeCount_pos (cfg : CommitteeConfig) (n : Nat) : 0 < committeeCount cfg n :=
  Nat.mul_pos (slotCommitteeCount_pos cfg n) cfg.slotsPerEpoch_pos

theorem committeeCount_lt {n : Nat} (h : n * committeeCount cfg n < 2 ^ 64) :
    committeeCount cfg n < 2 ^ 64 := by
  rcases Nat.eq_zero_or_pos n with rfl | hpos
  · have : slotCommitteeCount cfg 0 = 1 := by simp [slotCommitteeCount]
    rw [committeeCount, this, Nat.one_mul]
    exact cfg.slotsPerEpoch_lt
  · exact (Nat.le_mul_of_pos_left _ hpos).trans_lt h

def piece (xs : List Nat) (count index : Nat) : Option (List Nat) :=
  let start := splitOffset xs.length count index
  let stop := splitOffset xs.length count (add64 index 1)
  if start ≤ stop ∧ stop ≤ xs.length then some (xs.extract start stop) else none

/-- A check that only stops what slicing stops as well. -/
theorem toOption_slice {xs : List Nat} {start stop : Nat} {p : Prop} [Decidable p]
    {e : CommitteeError} (h : p → ¬ (start ≤ stop ∧ stop ≤ xs.length)) :
    (if p then .error e else slice xs start stop).toOption =
      if start ≤ stop ∧ stop ≤ xs.length then some (xs.extract start stop) else none := by
  unfold slice
  by_cases hp : p
  · rw [if_pos hp, if_neg (h hp)]
    rfl
  · rw [if_neg hp]
    split_ifs <;> rfl

/-- Whatever the cache holds for the seed is what `UpdateCommitteeCache` stored for the active
validators. -/
def Cache.Consistent (cache : Cache) (hash : Hash) (cfg : CommitteeConfig) (active : List Nat)
    (seed : Bytes32) : Prop :=
  ∀ item, cache seed = some item → cacheEntry hash cfg active seed = .ok item

variable {item : CachedCommittees}

/-- After a miss, collecting the active validators fills the cache. -/
theorem beaconCommitteeFromState_miss {cache : Cache} (hseed : cache seed = none)
    (hactive : active ≠ []) (hitem : cacheEntry hash cfg active seed = .ok item) (slot index : Nat) :
    beaconCommitteeFromState hash cfg cache active seed slot index =
      (item.committee cfg slot index).mapError .committeeCache := by
  simp only [beaconCommitteeFromState, activeValidatorIndices, updateCommitteeCache, hseed,
    if_neg hactive, hitem, Except.mapError, ok_bind, beaconCommittee, pure, Except.pure,
    Function.update_self]

theorem splitOffset_eq {n count index : Nat} (h : n * count < 2 ^ 64) (hindex : index ≤ count) :
    splitOffset n count index = n * index / count := by
  rw [splitOffset, mul64_of_lt ((Nat.mul_le_mul_left n hindex).trans_lt h)]

theorem piece_eq {xs : List Nat} {count index : Nat} (h : xs.length * count < 2 ^ 64)
    (hcount : count < 2 ^ 64) (hindex : index < count) :
    piece xs count index =
      some (xs.extract (xs.length * index / count) (xs.length * (index + 1) / count)) := by
  simp only [piece]
  rw [add64_of_lt (by omega), splitOffset_eq h hindex.le, splitOffset_eq h hindex,
    if_pos ⟨monotone_split xs.length count (Nat.le_succ _), split_le hindex⟩]

def committeeAt (cfg : CommitteeConfig) (shuffledList : List Nat) (k : Nat) : List Nat :=
  let n := shuffledList.length
  shuffledList.extract (n * k / committeeCount cfg n) (n * (k + 1) / committeeCount cfg n)

def committeeOf (cfg : CommitteeConfig) (shuffledList : List Nat) (s index : Nat) : List Nat :=
  committeeAt cfg shuffledList (s * slotCommitteeCount cfg shuffledList.length + index)

theorem flatMap_committeeOf (cfg : CommitteeConfig) (shuffledList : List Nat) :
    (List.range cfg.slotsPerEpoch).flatMap (fun s =>
      (List.range (slotCommitteeCount cfg shuffledList.length)).flatMap
        (committeeOf cfg shuffledList s)) = shuffledList := by
  have hpos := committeeCount_pos cfg shuffledList.length
  have hpieces := flatMap_extract shuffledList
    (monotone_split shuffledList.length (committeeCount cfg shuffledList.length))
    (committeeCount cfg shuffledList.length)
  have hdigits := flatMap_digits (committeeAt cfg shuffledList) cfg.slotsPerEpoch
    (slotCommitteeCount cfg shuffledList.length)
  rw [Nat.mul_comm cfg.slotsPerEpoch, ← committeeCount] at hdigits
  refine hdigits.trans (hpieces.trans ?_)
  rw [Nat.mul_div_cancel _ hpos]
  simp

theorem position_lt {perSlot s index : Nat} (hs : s < cfg.slotsPerEpoch)
    (hindex : index < perSlot) : s * perSlot + index < perSlot * cfg.slotsPerEpoch := by
  have hle : (s + 1) * perSlot ≤ cfg.slotsPerEpoch * perSlot := Nat.mul_le_mul_right _ hs
  rw [Nat.add_mul, Nat.one_mul, Nat.mul_comm cfg.slotsPerEpoch] at hle
  omega

theorem committeeOffset_eq {perSlot slot index : Nat} (hindex : index < perSlot)
    (hcount : perSlot * cfg.slotsPerEpoch < 2 ^ 64) :
    committeeOffset cfg perSlot slot index = .ok (slot % cfg.slotsPerEpoch * perSlot + index) := by
  have hlt : slot % cfg.slotsPerEpoch * perSlot + index < perSlot * cfg.slotsPerEpoch :=
    position_lt (Nat.mod_lt slot cfg.slotsPerEpoch_pos) hindex
  simp only [committeeOffset, slotMul]
  rw [safeMul64_of_lt (by omega)]
  simp only [ok_bind, safeAdd64]
  rw [if_pos (by omega), Nat.add_comm]

section Answers

variable (hshuffle : unshuffleList hash seed cfg active = .ok shuffledList)
  (hlength : shuffledList.length = active.length)
  (hsize : active.length * committeeCount cfg active.length < 2 ^ 64)

include hlength hsize in
/-- The committees that exist are pieces of the shuffled list. -/
theorem committeeOffset_bind_piece (slot : Nat) {index : Nat}
    (hindex : index < slotCommitteeCount cfg active.length) :
    (committeeOffset cfg (slotCommitteeCount cfg active.length) slot index).toOption.bind
        (piece shuffledList (committeeCount cfg active.length)) =
      some (committeeOf cfg shuffledList (slot % cfg.slotsPerEpoch) index) := by
  have hcount := committeeCount_lt hsize
  have hposition := position_lt (Nat.mod_lt slot cfg.slotsPerEpoch_pos) hindex
  rw [committeeOffset_eq hindex hcount, toOption_ok, Option.bind_some,
    piece_eq (by rw [hlength]; exact hsize) hcount hposition]
  simp only [committeeOf, committeeAt, hlength]

include hshuffle hlength hsize

theorem toOption_directCommittee (slot index : Nat) :
    (directCommittee hash cfg active seed slot index).toOption =
      (committeeOffset cfg (slotCommitteeCount cfg active.length) slot index).toOption.bind
        (piece shuffledList (committeeCount cfg active.length)) := by
  have hcount : mul64 (slotCommitteeCount cfg active.length) cfg.slotsPerEpoch =
      committeeCount cfg active.length := mul64_of_lt (committeeCount_lt hsize)
  simp only [directCommittee, toOption_bind, toOption_mapError, hcount]
  congr 1
  funext offset
  simp only [computeCommittee, hshuffle, piece, ← hlength, Except.mapError, ok_bind]
  refine toOption_slice ?_
  omega

theorem cacheEntry_eq :
    cacheEntry hash cfg active seed = .ok ⟨shuffledList, committeeCount cfg active.length,
      shuffledList.mergeSort (· ≤ ·)⟩ := by
  have hmul : slotMul cfg.slotsPerEpoch (slotCommitteeCount cfg active.length) =
      .ok (committeeCount cfg active.length) := by
    have hlt := committeeCount_lt hsize
    unfold committeeCount at hlt
    rw [slotMul, safeMul64_of_lt (by rw [Nat.mul_comm]; exact hlt), committeeCount, Nat.mul_comm]
  simp only [cacheEntry, hshuffle, Except.mapError, ok_bind, hlength, hmul]
  rfl

variable {item : CachedCommittees}

theorem toOption_committee (hitem : cacheEntry hash cfg active seed = .ok item) (slot index : Nat) :
    (item.committee cfg slot index).toOption =
      (committeeOffset cfg (slotCommitteeCount cfg active.length) slot index).toOption.bind
        (piece shuffledList (committeeCount cfg active.length)) := by
  have hentry := cacheEntry_eq hshuffle hlength hsize
  obtain rfl := Except.ok.inj (hentry.symm.trans hitem)
  have hpos := slotCommitteeCount_pos cfg active.length
  have hperSlot : committeeCount cfg active.length / cfg.slotsPerEpoch =
      slotCommitteeCount cfg active.length := Nat.mul_div_cancel _ cfg.slotsPerEpoch_pos
  have hcount : (if 1 < slotCommitteeCount cfg active.length then
      slotCommitteeCount cfg active.length else 1) = slotCommitteeCount cfg active.length := by
    split_ifs <;> omega
  simp only [CachedCommittees.committee, hperSlot, hcount, toOption_bind]
  congr 1
  funext offset
  simp only [piece]
  refine toOption_slice ?_
  omega

/-- Through the cache or not, the committee is the one computed directly. -/
theorem beaconCommitteeFromState_eq_direct {cache : Cache}
    (hcache : cache.Consistent hash cfg active seed) (hactive : active ≠ []) (slot index : Nat) :
    (beaconCommitteeFromState hash cfg cache active seed slot index).toOption =
      (directCommittee hash cfg active seed slot index).toOption := by
  have hcached {item : CachedCommittees} (hitem : cacheEntry hash cfg active seed = .ok item) :
      ((item.committee cfg slot index).mapError CommitteeError.committeeCache).toOption =
        (directCommittee hash cfg active seed slot index).toOption := by
    rw [toOption_mapError, toOption_committee hshuffle hlength hsize hitem,
      toOption_directCommittee hshuffle hlength hsize]
  cases hseed : cache seed with
  | some item =>
    simp only [beaconCommitteeFromState, hseed]
    exact hcached (hcache item hseed)
  | none =>
    cases hentry : cacheEntry hash cfg active seed with
    | ok item =>
      rw [beaconCommitteeFromState_miss hseed hactive hentry]
      exact hcached hentry
    | error e =>
      -- The cache could not be filled.
      simp only [beaconCommitteeFromState, activeValidatorIndices, updateCommitteeCache, hseed,
        if_neg hactive, hentry]
      change (beaconCommittee hash cfg cache active seed slot index).toOption = _
      simp only [beaconCommittee, hseed]

theorem committee_eq (hitem : cacheEntry hash cfg active seed = .ok item) (slot : Nat) {index : Nat}
    (hindex : index < slotCommitteeCount cfg active.length) :
    item.committee cfg slot index =
      .ok (committeeOf cfg shuffledList (slot % cfg.slotsPerEpoch) index) := by
  rw [← toOption_eq_some, toOption_committee hshuffle hlength hsize hitem,
    committeeOffset_bind_piece hlength hsize slot hindex]

end Answers

theorem length_committeeAt {k : Nat} (hk : k < committeeCount cfg shuffledList.length) :
    let smallest := shuffledList.length / committeeCount cfg shuffledList.length
    smallest ≤ (committeeAt cfg shuffledList k).length ∧
      (committeeAt cfg shuffledList k).length ≤ smallest + 1 := by
  have hstep := split_step shuffledList.length (committeeCount cfg shuffledList.length) k
  simp only [committeeAt]
  rw [length_extract (split_le hk)]
  exact ⟨Nat.le_sub_of_add_le' hstep.1, Nat.sub_le_iff_le_add'.2 hstep.2⟩

theorem disjoint_committeeAt (hnodup : shuffledList.Nodup) {k k' : Nat} (hne : k ≠ k') :
    (committeeAt cfg shuffledList k).Disjoint (committeeAt cfg shuffledList k') := by
  have hmono := monotone_split shuffledList.length (committeeCount cfg shuffledList.length)
  rcases Nat.lt_or_gt_of_ne hne with hlt | hgt
  · exact disjoint_extract hnodup (hmono hlt)
  · exact (disjoint_extract hnodup (hmono hgt)).symm

theorem position_ne {perSlot s s' index index' : Nat} (hindex : index < perSlot)
    (hindex' : index' < perSlot) (hne : (s, index) ≠ (s', index')) :
    s * perSlot + index ≠ s' * perSlot + index' := by
  intro h
  apply hne
  have hdiv (a b : Nat) (hb : b < perSlot) : (a * perSlot + b) / perSlot = a := by
    rw [Nat.add_comm, Nat.add_mul_div_right _ _ (by omega), Nat.div_eq_of_lt hb, Nat.zero_add]
  have hs : s = s' := by rw [← hdiv s index hindex, h, hdiv s' index' hindex']
  subst hs
  rw [Nat.add_left_cancel h]

/-- One validator for each of `2 ^ 32` slots, which makes `2 ^ 64` the product of the two numbers. -/
def longEpoch : CommitteeConfig := { slotsPerEpoch := 2 ^ 32 }

theorem slotCommitteeCount_longEpoch : slotCommitteeCount longEpoch (2 ^ 32) = 1 := by
  simp [slotCommitteeCount, longEpoch]

theorem cached_longEpoch (hlength : item.shuffledIndices.length = 2 ^ 32)
    (hcount : item.committeeCount = 2 ^ 32) :
    item.committee longEpoch (2 ^ 32 - 1) 0 = .error .requestedIndex := by
  have hoffset : committeeOffset longEpoch 1 (2 ^ 32 - 1) 0 = .ok (2 ^ 32 - 1) := by decide +kernel
  have hone : ¬ 1 < 2 ^ 32 / longEpoch.slotsPerEpoch := by norm_num [longEpoch]
  have hstop : splitOffset (2 ^ 32) (2 ^ 32) (add64 (2 ^ 32 - 1) 1) <
      splitOffset (2 ^ 32) (2 ^ 32) (2 ^ 32 - 1) := by
    norm_num [splitOffset, add64, mul64, uint64]
  simp only [CachedCommittees.committee, hlength, hcount, hone, if_false, hoffset, ok_bind]
  rw [if_pos (.inr hstop)]

end Partition

end LightChain.Committees

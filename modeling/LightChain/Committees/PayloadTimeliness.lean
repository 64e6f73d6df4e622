import LightChain.Committees.Assignment
import LightChain.Library.Positions

/-!
# The payload timeliness committee

`payloadCommittee` walks the committees of a slot round after round and accepts validators
by their effective balance, until enough are selected. The specification walks the
concatenation of the committees with a counter modulo its length.

The loop has no bound, so the functions take fuel and `none` means that the loop is still
running. The context of the call never expires here; it is the only other way out of the
loop. `payloadCommittee_meets_iff` says that the code does what is asked exactly when the
slot has a committee member. Without one it loops forever (`payloadCommittee_diverges`),
where the specification fails.
-/
namespace LightChain.Committees
open Library Epoch Nat

structure PtcConfig extends CommitteeConfig where
  epochsPerHistoricalVector : Nat := 65536
  minSeedLookahead : Nat := 1
  domainBeaconAttester : List Byte := [0x01, 0x00, 0x00, 0x00]
  domainPTCAttester : List Byte := [0x0C, 0x00, 0x00, 0x00]
  ptcSize : Nat := 512
  epochsPerHistoricalVector_pos : 0 < epochsPerHistoricalVector := by decide
  ptcSize_pos : 0 < ptcSize := by decide
  shuffleRoundCount_pos : 0 < shuffleRoundCount := by decide
  shuffleRoundCount_le : shuffleRoundCount ≤ 255 := by decide
  committees_lt : maxCommitteesPerSlot * slotsPerEpoch < 2 ^ 24 := by decide

instance (cfg : PtcConfig) : NeZero cfg.epochsPerHistoricalVector :=
  ⟨cfg.epochsPerHistoricalVector_pos.ne'⟩

def maxRandomValueElectra : Nat := 2 ^ 16 - 1

/-- The fields of a Gloas state that the committee depends on. The registry is an SSZ list of at
most as many validators as can be shuffled. -/
structure GloasState (cfg : PtcConfig) where
  slot : Nat
  validators : List Validator
  validators_le : validators.length ≤ maxShuffleListSize
  randaoMixes : Vector Bytes32 cfg.epochsPerHistoricalVector

inductive PtcError where
  | activeCount (cause : CommitteeError)
  | validator (index : Nat)
  | committee (committeeIndex : Nat) (cause : CommitteeError)
  | sample (committeeIndex : Nat) (cause : PtcError)
deriving DecidableEq, Repr

def PtcError.message : PtcError → String
  | .activeCount e => "could not update committee cache: " ++ e.message
  | .validator index => "validator " ++ toString index ++ ": index out of bounds"
  | .committee index e => "failed to get beacon committee " ++ toString index ++ ": " ++ e.message
  | .sample index e => "failed to sample beacon committee " ++ toString index ++ ": " ++ e.message

section Model

variable {cfg : PtcConfig} (hash : Hash) (st : GloasState cfg)

/-- `helpers.Seed`. -/
def seedOf (epoch : Nat) (domain : List Byte) : Bytes32 :=
  let lookAheadEpoch := sub64 (sub64 (add64 epoch cfg.epochsPerHistoricalVector)
    cfg.minSeedLookahead) 1
  let randaoMix := History.read st.randaoMixes lookAheadEpoch
  hash (domain ++ toLE 8 epoch ++ randaoMix.toList)

def ptcSeed (epoch slot : Nat) : Bytes32 :=
  hash ((seedOf hash st epoch cfg.domainPTCAttester).toList ++ toLE 8 slot)

def activeIndices (epoch : Nat) : List Nat :=
  positions (fun _ v => isActiveValidator v epoch) st.validators

/-- `ActiveValidatorCount`: counts, and fills the cache, unless the cache knows a number. -/
def activeValidatorCount (cache : Cache) (st : GloasState cfg) (epoch : Nat) :
    Except CommitteeError (Nat × Cache) :=
  let seed := seedOf hash st epoch cfg.domainBeaconAttester
  let cached := ((cache seed).map (·.sortedIndices.length)).getD 0
  if cached ≠ 0 ∧ st.slot ≠ 0 then .ok (cached, cache)
  else do
    let active := activeIndices st epoch
    let cache ← updateCommitteeCache hash cfg.toCommitteeConfig cache active seed
    return (active.length, cache)

/-- The random value of a round, two bytes of a hash. -/
def randomValue (seed : Bytes32) (round : Nat) : Nat :=
  ofLE ((hash (seed.toList ++ toLE 8 (round / 16))).toList.extract (round % 16 * 2)
    (round % 16 * 2 + 2))

def acceptByBalance (idx : Nat) (seed : Bytes32) (round : Nat) : Except PtcError Bool :=
  match st.validators[idx]? with
  | none => .error (.validator idx)
  | some v => .ok (mul64 cfg.maxEffectiveBalanceElectra (randomValue hash seed round) ≤
      mul64 v.effectiveBalance maxRandomValueElectra)

/-- `selectByBalanceFill`: the counter is not increased for the last one selected. -/
def selectByBalanceFill (st : GloasState cfg) (seed : Bytes32) :
    List Nat → List Nat → Nat → Except PtcError (List Nat × Nat)
  | [], selected, i => .ok (selected, i)
  | idx :: candidates, selected, i => do
    let accepted ← acceptByBalance hash st idx seed i
    let selected := if accepted then selected ++ [idx] else selected
    if selected.length = cfg.ptcSize then .ok (selected, i)
    else selectByBalanceFill st seed candidates selected (add64 i 1)

/-- One round over the committees of the slot, from a committee index on. -/
def sampleCommittees (cache : Cache) (st : GloasState cfg) (slot : Nat) :
    List Nat → List Nat → Nat → Except PtcError (List Nat × Nat)
  | [], selected, i => .ok (selected, i)
  | committeeIndex :: rest, selected, i =>
    if cfg.ptcSize ≤ selected.length then .ok (selected, i)
    else do
      let epoch := toEpoch cfg.toBeaconChainConfig slot
      let committee ← (beaconCommitteeFromState hash cfg.toCommitteeConfig cache
        (activeIndices st epoch) (seedOf hash st epoch cfg.domainBeaconAttester) slot
        committeeIndex).mapError (.committee committeeIndex)
      let (selected, i) ← (selectByBalanceFill hash st (ptcSeed hash st epoch slot) committee
        selected i).mapError (.sample committeeIndex)
      sampleCommittees cache st slot rest selected i

/-- The loop of `payloadCommittee`, of at most as many rounds as there is fuel. -/
def fillCommittee (cache : Cache) (st : GloasState cfg) (slot committeesPerSlot : Nat) :
    Nat → List Nat → Nat → Option (Except PtcError (List Nat))
  | 0, _, _ => none
  | fuel + 1, selected, i =>
    if selected.length < cfg.ptcSize then
      match sampleCommittees hash cache st slot (List.range committeesPerSlot) selected i with
      | .error e => some (.error e)
      | .ok (selected, i) => fillCommittee cache st slot committeesPerSlot fuel selected i
    else some (.ok selected)

def payloadCommittee (cache : Cache) (st : GloasState cfg) (slot fuel : Nat) :
    Option (Except PtcError (List Nat)) :=
  let epoch := toEpoch cfg.toBeaconChainConfig slot
  match activeValidatorCount hash cache st epoch with
  | .error e => some (.error (.activeCount e))
  | .ok (activeCount, cache) =>
    fillCommittee hash cache st slot (slotCommitteeCount cfg.toCommitteeConfig activeCount) fuel
      [] 0

end Model

namespace Spec

variable {cfg : PtcConfig} (hash : Hash) (st : GloasState cfg)

/-- The acceptance rule. Products outside `uint64` have no result. -/
def accepts (index : Nat) (seed : Bytes32) (i : Nat) : Option Bool := do
  let v ← st.validators[index]?
  let weight ← safeMul64 v.effectiveBalance maxRandomValueElectra
  let bound ← safeMul64 cfg.maxEffectiveBalanceElectra (randomValue hash seed i)
  return bound ≤ weight

/-- The selection loop over the candidates, without shuffling them. -/
def select (st : GloasState cfg) (indices : List Nat) (seed : Bytes32) :
    Nat → List Nat → Nat → Option (List Nat)
  | 0, _, _ => none
  | fuel + 1, selected, i =>
    if selected.length < cfg.ptcSize then do
      let candidate ← indices[i % indices.length]?
      let accepted ← accepts hash st candidate seed i
      let next ← safeAdd64 i 1
      select st indices seed fuel (if accepted then selected ++ [candidate] else selected) next
    else some selected

/-- The members of a committee, each found by `compute_shuffled_index`. -/
def computeCommittee (cfg : CommitteeConfig) (indices : List Nat) (seed : Bytes32)
    (index count : Nat) : List Nat :=
  let start := indices.length * index / count
  let stop := indices.length * (index + 1) / count
  (List.range' start (stop - start)).filterMap fun i =>
    (computeShuffledIndex hash seed cfg i indices.length true).toOption.bind (indices[·]?)

def slotMembers (slot : Nat) : List Nat :=
  let epoch := slot / cfg.slotsPerEpoch
  let indices := activeIndices st epoch
  let committeesPerSlot := slotCommitteeCount cfg.toCommitteeConfig indices.length
  (List.range committeesPerSlot).flatMap fun i =>
    computeCommittee hash cfg.toCommitteeConfig indices
      (seedOf hash st epoch cfg.domainBeaconAttester)
      (slot % cfg.slotsPerEpoch * committeesPerSlot + i) (committeesPerSlot * cfg.slotsPerEpoch)

def IsPtc (slot : Nat) (selected : List Nat) : Prop :=
  slotMembers hash st slot ≠ [] ∧
    ∃ fuel, select hash st (slotMembers hash st slot)
      (ptcSeed hash st (slot / cfg.slotsPerEpoch) slot) fuel [] 0 = some selected

end Spec

open Spec

section Selection

variable {cfg : PtcConfig} {hash : Hash} {st : GloasState cfg} {indices result : List Nat}
  {seed : Bytes32}

theorem acceptByBalance_eq {index i : Nat} {accepted : Bool}
    (h : accepts hash st index seed i = some accepted) :
    acceptByBalance hash st index seed i = .ok accepted := by
  simp only [accepts, Option.bind_eq_bind, Option.bind_eq_some_iff, safeMul64_eq_some] at h
  obtain ⟨v, hv, weight, ⟨hweight, rfl⟩, bound, ⟨hbound, rfl⟩, haccepted⟩ := h
  simp only [acceptByBalance, hv, mul64_of_lt hweight, mul64_of_lt hbound]
  simpa using haccepted

theorem select_full {fuel i : Nat} {selected : List Nat} (hfull : cfg.ptcSize ≤ selected.length)
    (h : select hash st indices seed fuel selected i = some result) : result = selected := by
  cases fuel with
  | zero => simp [select] at h
  | succ fuel =>
    rw [select, if_neg (by omega)] at h
    exact (Option.some.inj h).symm

theorem select_step {fuel i : Nat} {selected : List Nat} (hroom : selected.length < cfg.ptcSize)
    (h : select hash st indices seed fuel selected i = some result) :
    ∃ rest candidate accepted, fuel = rest + 1 ∧ indices[i % indices.length]? = some candidate ∧
      acceptByBalance hash st candidate seed i = .ok accepted ∧ add64 i 1 = i + 1 ∧
      select hash st indices seed rest
        (if accepted then selected ++ [candidate] else selected) (i + 1) = some result := by
  cases fuel with
  | zero => simp [select] at h
  | succ fuel =>
    simp only [select, if_pos hroom, Option.bind_eq_bind, Option.bind_eq_some_iff,
      safeAdd64_eq_some] at h
    obtain ⟨candidate, hcandidate, accepted, haccepted, next, ⟨hnext, rfl⟩, h⟩ := h
    exact ⟨fuel, candidate, accepted, rfl, hcandidate, acceptByBalance_eq haccepted,
      add64_of_lt hnext, h⟩

/-- Where the code is after it offered `count` candidates from the round `i` on: it has the
result, or the specification's loop goes on from there. -/
def Advanced (hash : Hash) (st : GloasState cfg) (indices : List Nat) (seed : Bytes32)
    (result : List Nat) (fuel count i : Nat) (outcome : List Nat × Nat) : Prop :=
  (outcome.1 = result ∧ result.length = cfg.ptcSize) ∨
    (outcome.1.length < cfg.ptcSize ∧ outcome.2 = i + count ∧ ∃ rest, fuel = rest + count ∧
      select hash st indices seed rest outcome.1 outcome.2 = some result)

/-- The inner loop keeps step with the specification: the round and the position in the
concatenation agree modulo its length. -/
theorem selectByBalanceFill_advanced {before candidates after : List Nat}
    (hindices : indices = before ++ candidates ++ after) {fuel i : Nat} {selected : List Nat}
    (hposition : i % indices.length = before.length % indices.length)
    (hroom : selected.length < cfg.ptcSize)
    (h : select hash st indices seed fuel selected i = some result) :
    ∃ outcome, selectByBalanceFill hash st seed candidates selected i = .ok outcome ∧
      Advanced hash st indices seed result fuel candidates.length i outcome := by
  induction candidates generalizing before fuel i selected with
  | nil => exact ⟨_, rfl, .inr ⟨hroom, rfl, fuel, rfl, h⟩⟩
  | cons idx candidates ih =>
    obtain ⟨rest, candidate, accepted, rfl, hcandidate, haccept, hadd, h⟩ := select_step hroom h
    have hlt : before.length < indices.length := by
      simp only [hindices, List.length_append, List.length_cons]
      omega
    have hidx : candidate = idx := by
      rw [hposition, mod_eq_of_lt hlt, hindices] at hcandidate
      simpa using hcandidate.symm
    subst hidx
    simp only [selectByBalanceFill, haccept, ok_bind]
    generalize hselected : (if accepted then selected ++ [candidate] else selected) = selected' at *
    have hlength : selected'.length ≤ cfg.ptcSize := by
      grind
    split_ifs with hfull
    · -- The counter stays behind, but the loops end here.
      exact ⟨_, rfl, .inl ⟨(select_full hfull.ge h).symm, by rw [select_full hfull.ge h, hfull]⟩⟩
    · have hnext : (i + 1) % indices.length = (before ++ [candidate]).length % indices.length := by
        rw [List.length_append, List.length_singleton, add_mod, hposition, ← add_mod]
      obtain ⟨outcome, hrun, hout⟩ := ih (by simp [hindices]) hnext (by omega) h
      rw [hadd]
      refine ⟨outcome, hrun, hout.imp_right ?_⟩
      rintro ⟨hlt, hround, fuel, hfuel, h⟩
      exact ⟨hlt, by rw [List.length_cons]; omega, fuel, by rw [List.length_cons]; omega, h⟩

end Selection

section Committees

variable {cfg : PtcConfig} {hash : Hash} {st : GloasState cfg} {cache : Cache} {slot : Nat}
  {members : Nat → List Nat} {result : List Nat}

/-- The code asks for committees and gets the given ones. -/
def Serves (hash : Hash) (cache : Cache) (st : GloasState cfg) (slot committeesPerSlot : Nat)
    (members : Nat → List Nat) : Prop :=
  ∀ index < committeesPerSlot, beaconCommitteeFromState hash cfg.toCommitteeConfig cache
    (activeIndices st (toEpoch cfg.toBeaconChainConfig slot))
    (seedOf hash st (toEpoch cfg.toBeaconChainConfig slot) cfg.domainBeaconAttester) slot index =
      .ok (members index)

variable {selected : List Nat}

theorem sampleCommittees_full (hfull : cfg.ptcSize ≤ selected.length) (committees : List Nat)
    (i : Nat) : sampleCommittees hash cache st slot committees selected i = .ok (selected, i) := by
  cases committees with
  | nil => rfl
  | cons index rest => rw [sampleCommittees, if_pos hfull]

variable {committeesPerSlot : Nat}

theorem sampleCommittees_advanced (hserves : Serves hash cache st slot committeesPerSlot members)
    {indices before after committees : List Nat}
    (hcommittees : ∀ k ∈ committees, k < committeesPerSlot)
    (hindices : indices = before ++ committees.flatMap members ++ after) {fuel i : Nat}
    (hposition : i % indices.length = before.length % indices.length)
    (hroom : selected.length < cfg.ptcSize)
    (h : select hash st indices (ptcSeed hash st (toEpoch cfg.toBeaconChainConfig slot) slot)
      fuel selected i = some result) :
    ∃ outcome, sampleCommittees hash cache st slot committees selected i = .ok outcome ∧
      Advanced hash st indices (ptcSeed hash st (toEpoch cfg.toBeaconChainConfig slot) slot) result
        fuel (committees.flatMap members).length i outcome := by
  induction committees generalizing before fuel i selected with
  | nil => exact ⟨_, rfl, .inr ⟨hroom, rfl, fuel, rfl, h⟩⟩
  | cons index rest ih =>
    simp only [List.flatMap_cons] at hindices
    have hcut : indices = before ++ members index ++ (rest.flatMap members ++ after) := by
      simp [hindices]
    obtain ⟨⟨chosen, round⟩, hrun, hout⟩ :=
      selectByBalanceFill_advanced hcut hposition hroom h
    have hcommittee := hserves index (hcommittees index List.mem_cons_self)
    simp only [sampleCommittees, if_neg hroom.not_ge, hcommittee, Except.mapError, ok_bind, hrun]
    rcases hout with ⟨rfl, hfull⟩ | ⟨hlt, rfl, fuel', rfl, hrest⟩
    · exact ⟨_, sampleCommittees_full hfull.ge _ _, .inl ⟨rfl, hfull⟩⟩
    · have hnext : (i + (members index).length) % indices.length =
          (before ++ members index).length % indices.length := by
        rw [List.length_append, add_mod, hposition, ← add_mod]
      obtain ⟨outcome, hrun, hout⟩ := ih (fun k hk => hcommittees k (List.mem_cons_of_mem _ hk))
        (by simp [hindices]) hnext hlt hrest
      refine ⟨outcome, hrun, hout.imp_right ?_⟩
      rintro ⟨hlt, hround, fuel, hfuel, h⟩
      simp only [List.flatMap_cons, List.length_append]
      exact ⟨hlt, by omega, fuel, by omega, h⟩

/-- With a member to offer, the loop ends with the specification's result. -/
theorem fillCommittee_eq (hserves : Serves hash cache st slot committeesPerSlot members)
    {indices : List Nat} (hindices : indices = (List.range committeesPerSlot).flatMap members)
    (hne : indices ≠ []) {fuel turns i : Nat} (hposition : i % indices.length = 0)
    (hturns : fuel < turns)
    (h : select hash st indices (ptcSeed hash st (toEpoch cfg.toBeaconChainConfig slot) slot)
      fuel selected i = some result) :
    fillCommittee hash cache st slot committeesPerSlot turns selected i = some (.ok result) := by
  -- A round uses up as much of the specification's fuel as there are members.
  induction turns generalizing fuel selected i with
  | zero => omega
  | succ turns ih =>
    rw [fillCommittee]
    split_ifs with hroom
    · obtain ⟨⟨chosen, round⟩, hrun, hout⟩ := sampleCommittees_advanced hserves
        (fun k hk => List.mem_range.1 hk) (show indices = [] ++ _ ++ [] by simp [hindices])
        (by simpa using hposition) hroom h
      have hpos := List.length_pos_iff.2 hne
      rw [← hindices] at hout
      simp only [hrun]
      rcases hout with ⟨rfl, hfull⟩ | ⟨hlt, rfl, rest, rfl, hrest⟩
      · obtain ⟨rest, _, _, rfl, -⟩ := select_step hroom h
        obtain ⟨turns, rfl⟩ : ∃ k, turns = k + 1 := ⟨turns - 1, by omega⟩
        rw [fillCommittee, if_neg hfull.not_lt]
      · exact ih (by rw [add_mod_right, hposition]) (by omega) hrest
    · rw [select_full (by omega) h]

theorem sampleCommittees_empty (hserves : Serves hash cache st slot committeesPerSlot fun _ => [])
    {committees : List Nat} (hcommittees : ∀ k ∈ committees, k < committeesPerSlot)
    (selected : List Nat) (i : Nat) :
    sampleCommittees hash cache st slot committees selected i = .ok (selected, i) := by
  induction committees with
  | nil => rfl
  | cons index rest ih =>
    have hcommittee := hserves index (hcommittees index List.mem_cons_self)
    simp only [sampleCommittees, hcommittee, Except.mapError, ok_bind, selectByBalanceFill]
    rw [ih fun k hk => hcommittees k (List.mem_cons_of_mem _ hk), ite_self]

theorem fillCommittee_diverges (hserves : Serves hash cache st slot committeesPerSlot fun _ => [])
    (hroom : selected.length < cfg.ptcSize) (turns i : Nat) :
    fillCommittee hash cache st slot committeesPerSlot turns selected i = none := by
  induction turns with
  | zero => rfl
  | succ turns ih =>
    simp only [fillCommittee, if_pos hroom,
      sampleCommittees_empty hserves fun k hk => List.mem_range.1 hk, ih]

end Committees

section Slot

variable {cfg : PtcConfig} {hash : Hash} {st : GloasState cfg} {cache : Cache} {slot : Nat}

theorem slotCommitteeCount_le (cfg : CommitteeConfig) (n : Nat) :
    slotCommitteeCount cfg n ≤ cfg.maxCommitteesPerSlot := by
  have := cfg.maxCommitteesPerSlot_pos
  simp only [slotCommitteeCount]
  generalize n / cfg.slotsPerEpoch / cfg.targetCommitteeSize = committees
  split_ifs <;> omega

/-- The offsets of the committees of a registry stay inside `uint64`. -/
theorem activeIndices_size (st : GloasState cfg) (epoch : Nat) :
    (activeIndices st epoch).length *
      committeeCount cfg.toCommitteeConfig (activeIndices st epoch).length < 2 ^ 64 := by
  have hlength : (activeIndices st epoch).length ≤ 2 ^ 40 :=
    (length_positions_le _ _).trans st.validators_le
  have hcount : committeeCount cfg.toCommitteeConfig (activeIndices st epoch).length < 2 ^ 24 :=
    (Nat.mul_le_mul_right _ (slotCommitteeCount_le _ _)).trans_lt cfg.committees_lt
  calc _ ≤ 2 ^ 40 * committeeCount cfg.toCommitteeConfig (activeIndices st epoch).length :=
        Nat.mul_le_mul_right _ hlength
    _ < 2 ^ 40 * 2 ^ 24 := Nat.mul_lt_mul_of_pos_left hcount (by decide)
    _ = 2 ^ 64 := by norm_num

theorem exists_shuffled (hash : Hash) (st : GloasState cfg) (epoch : Nat) (seed : Bytes32) :
    ∃ shuffledList,
      unshuffleList hash seed cfg.toCommitteeConfig (activeIndices st epoch) = .ok shuffledList ∧
      shuffledList.length = (activeIndices st epoch).length ∧
      ∀ i, (computeShuffledIndex hash seed cfg.toCommitteeConfig i (activeIndices st epoch).length
        true).toOption.bind ((activeIndices st epoch)[·]?) = shuffledList[i]? := by
  have hlength : (activeIndices st epoch).length ≤ maxShuffleListSize :=
    (length_positions_le _ _).trans st.validators_le
  have hrounds : cfg.shuffleRoundCount % 256 ≠ 0 := by
    have := cfg.shuffleRoundCount_pos
    have := cfg.shuffleRoundCount_le
    omega
  obtain ⟨out, hout, hsize, hreads⟩ := innerShuffleList_reads hash seed hrounds hlength false
  rw [List.size_toArray, List.size_toArray] at hsize
  refine ⟨out, hout, hsize, fun i => ?_⟩
  by_cases hi : i < (activeIndices st epoch).length
  · rw [computeShuffledIndex_eq hash seed cfg.shuffleRoundCount_pos hi hlength, toOption_ok,
      Option.bind_some]
    simpa using (hreads i (by simpa using hi)).symm
  · rw [computeShuffledIndex, if_neg cfg.shuffleRoundCount_pos.ne', if_pos (by omega),
      toOption_error, Option.bind_none, List.getElem?_eq_none (by omega)]

theorem activeValidatorCount_eq {epoch : Nat} {shuffledList : List Nat}
    (hcache : cache.Consistent hash cfg.toCommitteeConfig (activeIndices st epoch)
      (seedOf hash st epoch cfg.domainBeaconAttester))
    (hshuffle : unshuffleList hash (seedOf hash st epoch cfg.domainBeaconAttester)
      cfg.toCommitteeConfig (activeIndices st epoch) = .ok shuffledList)
    (hlength : shuffledList.length = (activeIndices st epoch).length) :
    ∃ item cache', cacheEntry hash cfg.toCommitteeConfig (activeIndices st epoch)
        (seedOf hash st epoch cfg.domainBeaconAttester) = .ok item ∧
      cache' (seedOf hash st epoch cfg.domainBeaconAttester) = some item ∧
      activeValidatorCount hash cache st epoch = .ok ((activeIndices st epoch).length, cache') := by
  have hentry := cacheEntry_eq hshuffle hlength (activeIndices_size st epoch)
  generalize hentryItem : CachedCommittees.mk _ _ _ = entry at hentry
  cases hseed : cache (seedOf hash st epoch cfg.domainBeaconAttester) with
  | none =>
    refine ⟨entry, Function.update cache _ (some entry), hentry, Function.update_self .., ?_⟩
    simp [activeValidatorCount, updateCommitteeCache, hseed, hentry]
  | some item =>
    obtain rfl := Except.ok.inj ((hcache item hseed).symm.trans hentry)
    refine ⟨item, cache, hentry, hseed, ?_⟩
    simp only [activeValidatorCount, updateCommitteeCache, hseed, Option.map_some, Option.getD_some,
      ← hentryItem, List.length_mergeSort, hlength]
    split_ifs <;> rfl

section Cached

variable (hcache : cache.Consistent hash cfg.toCommitteeConfig
    (activeIndices st (slot / cfg.slotsPerEpoch))
    (seedOf hash st (slot / cfg.slotsPerEpoch) cfg.domainBeaconAttester))

include hcache

theorem exists_serves :
    ∃ cache' committeesPerSlot members,
      (∀ turns, payloadCommittee hash cache st slot turns =
        fillCommittee hash cache' st slot committeesPerSlot turns [] 0) ∧
      Serves hash cache' st slot committeesPerSlot members ∧
      slotMembers hash st slot = (List.range committeesPerSlot).flatMap members := by
  obtain ⟨shuffledList, hshuffle, hlength, hreads⟩ := exists_shuffled hash st
    (slot / cfg.slotsPerEpoch) (seedOf hash st (slot / cfg.slotsPerEpoch) cfg.domainBeaconAttester)
  obtain ⟨item, cache', hitem, hseed, hcount⟩ := activeValidatorCount_eq hcache hshuffle hlength
  refine ⟨cache', slotCommitteeCount cfg.toCommitteeConfig
    (activeIndices st (slot / cfg.slotsPerEpoch)).length,
    committeeOf cfg.toCommitteeConfig shuffledList (slot % cfg.slotsPerEpoch), fun turns => ?_,
    fun index hindex => ?_, ?_⟩
  · simp only [payloadCommittee, toEpoch, hcount]
  · simp only [toEpoch, beaconCommitteeFromState, hseed]
    rw [committee_eq hshuffle hlength (activeIndices_size st _) hitem slot hindex]
    rfl
  · simp only [slotMembers, Spec.computeCommittee, hreads, filterMap_getElem?]
    congr 1
    funext index
    simp only [committeeOf, committeeAt, committeeCount, hlength]

theorem payloadCommittee_eq {selected : List Nat} (h : Spec.IsPtc hash st slot selected) :
    ∃ fuel, payloadCommittee hash cache st slot fuel = some (.ok selected) := by
  obtain ⟨hne, fuel, h⟩ := h
  obtain ⟨cache', committeesPerSlot, members, hrun, hserves, hmembers⟩ := exists_serves hcache
  exact ⟨fuel + 1, (hrun _).trans (fillCommittee_eq hserves hmembers hne (zero_mod _)
    (lt_succ_self fuel) h)⟩

theorem payloadCommittee_diverges (h : slotMembers hash st slot = []) (fuel : Nat) :
    payloadCommittee hash cache st slot fuel = none := by
  obtain ⟨cache', committeesPerSlot, members, hrun, hserves, hmembers⟩ := exists_serves hcache
  rw [hmembers, List.flatMap_eq_nil_iff] at h
  have hnone : Serves hash cache' st slot committeesPerSlot fun _ => [] := fun index hindex => by
    rw [hserves index hindex, h index (List.mem_range.2 hindex)]
  rw [hrun]
  exact fillCommittee_diverges hnone (by simpa using cfg.ptcSize_pos) fuel 0

end Cached

/-- What is asked of the committee: the specification's result where it has one, and an error
where the slot has no committee member. -/
def Meets (hash : Hash) (cache : Cache) (st : GloasState cfg) (slot : Nat) : Prop :=
  (∀ selected, Spec.IsPtc hash st slot selected →
    ∃ fuel, payloadCommittee hash cache st slot fuel = some (.ok selected)) ∧
  (slotMembers hash st slot = [] →
    ∃ fuel e, payloadCommittee hash cache st slot fuel = some (.error e))

/-- The code does what is asked exactly when the slot has a committee member. -/
theorem payloadCommittee_meets_iff
    (hcache : cache.Consistent hash cfg.toCommitteeConfig
      (activeIndices st (slot / cfg.slotsPerEpoch))
      (seedOf hash st (slot / cfg.slotsPerEpoch) cfg.domainBeaconAttester)) :
    Meets hash cache st slot ↔ slotMembers hash st slot ≠ [] := by
  constructor
  · rintro ⟨-, herror⟩ hempty
    obtain ⟨fuel, e, h⟩ := herror hempty
    rw [payloadCommittee_diverges hcache hempty] at h
    cases h
  · intro hne
    exact ⟨fun selected h => payloadCommittee_eq hcache h, fun hempty => absurd hempty hne⟩

def lone (cfg : PtcConfig) : GloasState cfg where
  slot := 0
  validators := [{ effectiveBalance := 2048000000000 }]
  validators_le := by decide
  randaoMixes := Vector.replicate _ (Vector.replicate 32 0)

/-- With one validator in the mainnet configuration, slot 0 has no committee member. -/
theorem payloadCommittee_lone_diverges :
    slotMembers mixing (lone {}) 0 = [] ∧
      ∀ fuel, payloadCommittee mixing (fun _ => none) (lone {}) 0 fuel = none := by
  have hempty : slotMembers mixing (lone {}) 0 = [] := by decide +kernel
  exact ⟨hempty, payloadCommittee_diverges (fun _ h => by cases h) hempty⟩

/-- With epochs of one slot, the validator is selected. -/
theorem payloadCommittee_meets_lone :
    let cfg : PtcConfig := { slotsPerEpoch := 1, ptcSize := 1, epochsPerHistoricalVector := 2 }
    Meets mixing (fun _ => none) (lone cfg) 0 ∧ Spec.IsPtc mixing (lone cfg) 0 [0] := by
  intro cfg
  have hmembers : slotMembers mixing (lone cfg) 0 = [0] := by decide +kernel
  refine ⟨(payloadCommittee_meets_iff (fun _ h => by cases h)).2 (by rw [hmembers]; decide), ?_⟩
  refine ⟨by rw [hmembers]; decide, 2, ?_⟩
  rw [hmembers]
  decide +kernel

end Slot

end LightChain.Committees

import LightChain.Config.Params
import LightChain.Library.LittleEndian
import LightChain.Library.Reindex

/-!
# Swap-or-not shuffling

`ComputeShuffledIndex` follows one index through the rounds. `innerShuffleList` moves a
whole list: in each round it walks the mirrored pairs on both sides of the pivot from the
outside in, and fetches a new hash every 256 and a new byte every 8 positions.
`listRound_reads` says that a round of the list reads along the round of the index.

Positions stay below `2 ^ 41`, so no `uint64` operation wraps. Masks and shifts are written
as remainders and quotients.
-/
namespace LightChain.Committees
open Library

abbrev Bytes32 := Vector Byte 32

/-- The hash function, of which nothing is assumed. -/
abbrev Hash := List Byte → Bytes32

/-- The configuration of committees, with the mainnet values as defaults. -/
structure CommitteeConfig extends BeaconChainConfig where
  shuffleRoundCount : Nat := 90
  targetCommitteeSize : Nat := 128
  maxCommitteesPerSlot : Nat := 64
  targetCommitteeSize_pos : 0 < targetCommitteeSize := by decide
  maxCommitteesPerSlot_pos : 0 < maxCommitteesPerSlot := by decide
  slotsPerEpoch_lt : slotsPerEpoch < 2 ^ 64 := by decide

def maxShuffleListSize : Nat := 2 ^ 40

inductive ShuffleError where
  | inputIndex (index indexCount : Nat)
  | listSize (size : Nat)
deriving DecidableEq, Repr

def ShuffleError.message : ShuffleError → String
  | .inputIndex index indexCount =>
    "input index " ++ toString index ++ " out of bounds: " ++ toString indexCount
  | .listSize size => "list size " ++ toString size ++ " out of bounds"

section Model

variable (hash : Hash) (seed : Bytes32)

/-- The source of randomness for a block of 256 positions. -/
def sourceBlock (round block : Nat) : Bytes32 :=
  hash (seed.toList ++ BitVec.ofNat 8 round :: toLE 4 block)

def pivotOf (round listSize : Nat) : Nat :=
  ofLE ((hash (seed.toList ++ [BitVec.ofNat 8 round])).toList.take 8) % listSize

/-- The byte of a source that decides about a position. -/
def byteAt (source : Bytes32) (position : Nat) : Byte :=
  source.get ⟨position % 256 / 8, by omega⟩

def bitAt (byteV : Byte) (position : Nat) : Bool := byteV.getLsbD (position % 8)

/-- One round of `ComputeShuffledIndex`. -/
def indexRound (indexCount round index : Nat) : Nat :=
  let pivot := pivotOf hash seed round indexCount
  let flip := (pivot + indexCount - index) % indexCount
  let position := max flip index
  if bitAt (byteAt (sourceBlock hash seed round (position / 256)) position) position then flip
  else index

/-- The rounds in the order of the loop. Its counter is a `uint8` that is compared after the
step, so a count of zero means 256 rounds. -/
def roundOrder (rounds : Nat) (shuffle : Bool) : List Nat :=
  let count := if rounds = 0 then 256 else rounds
  if shuffle then List.range count else (List.range count).reverse

variable (cfg : CommitteeConfig)

def computeShuffledIndex (index indexCount : Nat) (shuffle : Bool) : Except ShuffleError Nat :=
  if cfg.shuffleRoundCount = 0 then .ok index
  else if indexCount ≤ index then .error (.inputIndex index indexCount)
  else if maxShuffleListSize < indexCount then .error (.listSize indexCount)
  else .ok ((roundOrder (cfg.shuffleRoundCount % 256) shuffle).foldl
    (fun index round => indexRound hash seed indexCount round index) index)

def shuffledIndex (index indexCount : Nat) : Except ShuffleError Nat :=
  computeShuffledIndex hash seed cfg index indexCount true

def unShuffledIndex (index indexCount : Nat) : Except ShuffleError Nat :=
  computeShuffledIndex hash seed cfg index indexCount false

variable {α : Type}

/-- `swapOrNot`: refresh the source and the byte where the position enters a new one. -/
def swapOrNot (round : Nat) (byteV : Byte) (i : Nat) (input : Array α) (j : Nat)
    (source : Bytes32) : Byte × Bytes32 × Array α :=
  let source := if j % 256 = 255 then sourceBlock hash seed round (j / 256) else source
  let byteV := if j % 8 = 7 then byteAt source j else byteV
  (byteV, source, if bitAt byteV j then input.swapIfInBounds i j else input)

/-- A loop over mirrored pairs: `count` turns, `i` upwards and `j` downwards. -/
def swapLoop (round : Nat) : Nat → Nat → Nat → Byte → Bytes32 → Array α → Array α
  | 0, _, _, _, _, input => input
  | count + 1, i, j, byteV, source, input =>
    let (byteV, source, input) := swapOrNot hash seed round byteV i input j source
    swapLoop round count (i + 1) (j - 1) byteV source input

/-- The pairs from `i` upwards and `j` downwards, with the source and byte of `j` fetched. -/
def swapPairs (round mirror i j : Nat) (input : Array α) : Array α :=
  let source := sourceBlock hash seed round (j / 256)
  swapLoop hash seed round (mirror - i) i j (byteAt source j) source input

/-- One round of `innerShuffleList`: the part up to the pivot, then the part after it. -/
def listRound (input : Array α) (round : Nat) : Array α :=
  let listSize := input.size
  let pivot := pivotOf hash seed round listSize
  let input := swapPairs hash seed round ((pivot + 1) / 2) 0 pivot input
  swapPairs hash seed round ((pivot + listSize + 1) / 2) (pivot + 1) (listSize - 1) input

def innerShuffleList (input : List α) (shuffle : Bool) : Except ShuffleError (List α) :=
  if input.length ≤ 1 then .ok input
  else if maxShuffleListSize < input.length then .error (.listSize input.length)
  else if cfg.shuffleRoundCount % 256 = 0 then .ok input
  else .ok ((roundOrder (cfg.shuffleRoundCount % 256) shuffle).foldl (listRound hash seed)
    input.toArray).toList

def shuffleList (input : List α) : Except ShuffleError (List α) :=
  innerShuffleList hash seed cfg input true

def unshuffleList (input : List α) : Except ShuffleError (List α) :=
  innerShuffleList hash seed cfg input false

end Model

section Rounds

variable {hash : Hash} {seed : Bytes32} {round : Nat} {α : Type}

/-- The decision of a round about the pair whose larger position is given. -/
def decides (hash : Hash) (seed : Bytes32) (round position : Nat) : Bool :=
  bitAt (byteAt (sourceBlock hash seed round (position / 256)) position) position

/-- The source and the byte in hand are those of position `j`, unless `j` is where new ones are
fetched. -/
structure Ready (hash : Hash) (seed : Bytes32) (round j : Nat) (byteV : Byte)
    (source : Bytes32) : Prop where
  source : j % 256 ≠ 255 → source = sourceBlock hash seed round (j / 256)
  byte : j % 8 ≠ 7 → byteV = byteAt (sourceBlock hash seed round (j / 256)) j

theorem byteAt_congr (source : Bytes32) {j j' : Nat} (h : j % 256 / 8 = j' % 256 / 8) :
    byteAt source j = byteAt source j' := by
  unfold byteAt
  congr 2

/-- What was fetched for a position serves the next one below. -/
theorem ready_pred (hash : Hash) (seed : Bytes32) (round : Nat) {j : Nat} (hj : 0 < j) :
    Ready hash seed round (j - 1) (byteAt (sourceBlock hash seed round (j / 256)) j)
      (sourceBlock hash seed round (j / 256)) := by
  constructor
  · intro h
    rw [show (j - 1) / 256 = j / 256 by omega]
  · intro h
    rw [show (j - 1) / 256 = j / 256 by omega]
    exact byteAt_congr _ (by omega)

theorem swapOrNot_eq {i j : Nat} {byteV : Byte} {source : Bytes32}
    (h : Ready hash seed round j byteV source) (input : Array α) :
    swapOrNot hash seed round byteV i input j source =
      (byteAt (sourceBlock hash seed round (j / 256)) j, sourceBlock hash seed round (j / 256),
        if decides hash seed round j then input.swapIfInBounds i j else input) := by
  have hsource : (if j % 256 = 255 then sourceBlock hash seed round (j / 256) else source) =
      sourceBlock hash seed round (j / 256) := by
    split_ifs with h255
    · rfl
    · exact h.source h255
  have hbyte : (if j % 8 = 7 then byteAt (sourceBlock hash seed round (j / 256)) j else byteV) =
      byteAt (sourceBlock hash seed round (j / 256)) j := by
    split_ifs with h7
    · rfl
    · exact h.byte h7
  simp only [swapOrNot, hsource, hbyte]
  rfl

theorem reads_swap (input : Array α) {i j : Nat} (hi : i < input.size) (hj : j < input.size) :
    Reads (fun x => if x = i then j else if x = j then i else x) (input.swapIfInBounds i j)
      input := by
  refine ⟨Array.size_swapIfInBounds, fun x hx => ?_⟩
  rw [Array.getElem?_eq_getElem (by rw [Array.size_swapIfInBounds]; exact hx),
    Array.getElem_swapIfInBounds]
  by_cases hxi : x = i
  · simp [hxi, hj]
  · by_cases hxj : x = j
    · dsimp only
      rw [dif_neg (fun h => hxi h.1), dif_pos ⟨hxj, hi⟩, if_neg hxi, if_pos hxj,
        Array.getElem?_eq_getElem hi]
    · simp [hxi, hxj, hx]

variable (decide : Nat → Bool)

/-- The index map of a loop over `count` mirrored pairs. -/
def mirrored (count i j x : Nat) : Nat :=
  if (i ≤ x ∧ x < i + count ∨ j < x + count ∧ x ≤ j) ∧ decide (max x (i + j - x)) then i + j - x
  else x

theorem mirrored_succ {count i j : Nat} (h : i + 2 * (count + 1) ≤ j + 1) (x : Nat) :
    mirrored decide (count + 1) i j x =
      (fun x => if decide j then if x = i then j else if x = j then i else x else x)
        (mirrored decide count (i + 1) (j - 1) x) := by
  have hsum : i + 1 + (j - 1) = i + j := by omega
  unfold mirrored
  rw [hsum]
  by_cases houter : x = i ∨ x = j
  · -- The outer pair, which the pairs inside leave alone.
    have hmax : max x (i + j - x) = j := by omega
    have hin : i ≤ x ∧ x < i + (count + 1) ∨ j < x + (count + 1) ∧ x ≤ j := by omega
    have hout : ¬ (i + 1 ≤ x ∧ x < i + 1 + count ∨ j - 1 < x + count ∧ x ≤ j - 1) := by omega
    simp only [hmax, hin, hout, false_and, if_false, true_and]
    split_ifs <;> omega
  · have hsame : (i ≤ x ∧ x < i + (count + 1) ∨ j < x + (count + 1) ∧ x ≤ j) ↔
        (i + 1 ≤ x ∧ x < i + 1 + count ∨ j - 1 < x + count ∧ x ≤ j - 1) := by omega
    simp only [hsame]
    split_ifs <;> omega

theorem mirrored_zero (i j x : Nat) : mirrored decide 0 i j x = x := by
  unfold mirrored
  split_ifs <;> omega

theorem below_mirrored {n count i j : Nat} (h : i + 2 * count ≤ j + 1) (hj : j < n) :
    Below n (mirrored decide count i j) := by
  intro x hx
  unfold mirrored
  split_ifs <;> omega

variable {input : Array α}

/-- A loop over mirrored pairs reads along its index map. -/
theorem swapLoop_reads {count i j : Nat} {byteV : Byte} {source : Bytes32}
    (hready : Ready hash seed round j byteV source) (h : i + 2 * count ≤ j + 1)
    (hj : j < input.size) :
    Reads (mirrored (decides hash seed round) count i j)
      (swapLoop hash seed round count i j byteV source input) input := by
  induction count generalizing i j byteV source input with
  | zero => exact (Reads.refl input).congr fun x _ => (mirrored_zero _ i j x).symm
  | succ count ih =>
    have hfirst : Reads
        (fun x => if decides hash seed round j then if x = i then j else if x = j then i else x
          else x)
        (if decides hash seed round j then input.swapIfInBounds i j else input) input := by
      split_ifs
      · exact reads_swap input (by omega) hj
      · exact .refl input
    have hrest : Reads _ (swapLoop hash seed round count (i + 1) (j - 1) _ _
        (if decides hash seed round j then input.swapIfInBounds i j else input)) _ :=
      ih (ready_pred hash seed round (show 0 < j by omega)) (by omega) (by rw [hfirst.1]; omega)
    simp only [swapLoop, swapOrNot_eq hready]
    exact (hrest.trans hfirst (below_mirrored _ (by omega) (by omega))).congr
      fun x _ => (mirrored_succ _ h x).symm

theorem swapPairs_reads {mirror i j : Nat} (h : i + 2 * (mirror - i) ≤ j + 1) (hj : j < input.size) :
    Reads (mirrored (decides hash seed round) (mirror - i) i j)
      (swapPairs hash seed round mirror i j input) input :=
  swapLoop_reads ⟨fun _ => rfl, fun _ => rfl⟩ h hj

theorem flip_eq {pivot n x : Nat} (hpivot : pivot < n) (hx : x < n) :
    (pivot + n - x) % n = if x ≤ pivot then pivot - x else pivot + n - x := by
  split_ifs with h
  · rw [show pivot + n - x = pivot - x + n by omega, Nat.add_mod_right, Nat.mod_eq_of_lt (by omega)]
  · exact Nat.mod_eq_of_lt (by omega)

theorem pivotOf_lt (hash : Hash) (seed : Bytes32) (round : Nat) {n : Nat} (hn : 0 < n) :
    pivotOf hash seed round n < n := Nat.mod_lt _ hn

theorem indexRound_eq {n x : Nat} (hx : x < n) :
    indexRound hash seed n round x =
      (let pivot := pivotOf hash seed round n
       let flip := if x ≤ pivot then pivot - x else pivot + n - x
       if decides hash seed round (max flip x) then flip else x) := by
  have hpivot := pivotOf_lt hash seed round (show 0 < n by omega)
  simp only [indexRound, flip_eq hpivot hx]
  rfl

theorem below_indexRound (hash : Hash) (seed : Bytes32) (n round : Nat) :
    Below n (indexRound hash seed n round) := by
  intro x hx
  have hpivot := pivotOf_lt hash seed round (show 0 < n by omega)
  rw [indexRound_eq hx]
  dsimp only
  split_ifs <;> omega

/-- A round is its own inverse: a pair asks for the same decision from both sides. -/
theorem indexRound_undoes (hash : Hash) (seed : Bytes32) (n round : Nat) :
    Undoes n (indexRound hash seed n round) (indexRound hash seed n round) := by
  intro x hx
  have hpivot := pivotOf_lt hash seed round (show 0 < n by omega)
  have hbelow := below_indexRound hash seed n round x hx
  rw [indexRound_eq hbelow, indexRound_eq hx]
  generalize pivotOf hash seed round n = pivot at hpivot
  dsimp only
  by_cases hle : x ≤ pivot
  · simp only [hle, if_true]
    by_cases hd : decides hash seed round (max (pivot - x) x) = true
    · have hback : pivot - (pivot - x) = x := by omega
      simp only [hd, if_true, Nat.sub_le, hback, max_comm x]
    · simp only [hd, if_false, hle, if_true, Bool.false_eq_true]
  · simp only [hle, if_false]
    by_cases hd : decides hash seed round (max (pivot + n - x) x) = true
    · have hgt : ¬ pivot + n - x ≤ pivot := by omega
      have hback : pivot + n - (pivot + n - x) = x := by omega
      simp only [hd, if_true, hgt, if_false, hback, max_comm x]
    · simp only [hd, if_false, hle, Bool.false_eq_true]

/-- All pairs with the sum `i + j`: an index between them moves to its mirror image if the pair
is swapped. The middle, which is in no pair, is its own image. -/
theorem mirrored_all (count : Nat) {i j x : Nat} (hcount : j ≤ i + 2 * count) (hi : i ≤ x)
    (hj : x ≤ j) :
    mirrored decide count i j x =
      if decide (max (i + j - x) x) then i + j - x else x := by
  unfold mirrored
  rw [max_comm x]
  by_cases hd : decide (max (i + j - x) x) = true
  · simp only [hd, and_true, if_true]
    split_ifs <;> omega
  · simp only [hd, and_false, if_false, Bool.false_eq_true]

theorem mirrored_outside {count i j x : Nat} (hcount : i + 2 * count ≤ j + 1) (h : x < i ∨ j < x) :
    mirrored decide count i j x = x := by
  unfold mirrored
  split_ifs <;> omega

/-- A round of the list reads along the round of the index. -/
theorem listRound_reads (hash : Hash) (seed : Bytes32) (hpos : 0 < input.size) (round : Nat) :
    Reads (indexRound hash seed input.size round) (listRound hash seed input round) input := by
  have hpivot := pivotOf_lt hash seed round hpos
  simp only [listRound]
  generalize hn : input.size = n at *
  generalize hp : pivotOf hash seed round n = pivot at *
  have hfirst : Reads _ (swapPairs hash seed round ((pivot + 1) / 2) 0 pivot input) input :=
    swapPairs_reads (by omega) (by omega)
  have hsecond : Reads _ (swapPairs hash seed round ((pivot + n + 1) / 2) (pivot + 1) (n - 1)
      (swapPairs hash seed round ((pivot + 1) / 2) 0 pivot input)) _ :=
    swapPairs_reads (by omega) (by rw [hfirst.1]; omega)
  refine (hsecond.trans hfirst (hn ▸ below_mirrored _ (by omega) (by omega))).congr
    fun x hx => ?_
  rw [hn] at hx
  rw [indexRound_eq hx, hp, Function.comp_apply]
  dsimp only
  by_cases hle : x ≤ pivot
  · have hstay : mirrored (decides hash seed round) ((pivot + n + 1) / 2 - (pivot + 1)) (pivot + 1)
        (n - 1) x = x := mirrored_outside _ (by omega) (.inl (by omega))
    rw [hstay, mirrored_all _ _ (by omega) (Nat.zero_le x) hle, if_pos hle, Nat.zero_add]
  · have hmove := mirrored_all (decides hash seed round) ((pivot + n + 1) / 2 - (pivot + 1))
      (i := pivot + 1) (j := n - 1) (x := x) (by omega) (by omega) (by omega)
    rw [show pivot + 1 + (n - 1) = pivot + n by omega] at hmove
    rw [hmove, if_neg hle]
    exact mirrored_outside _ (by omega) (.inr (by split_ifs <;> omega))

end Rounds

section Lists

variable (hash : Hash) (seed : Bytes32) {cfg : CommitteeConfig} {α : Type}

def shuffled (cfg : CommitteeConfig) (n : Nat) (shuffle : Bool) :
    Nat → Nat :=
  walk (indexRound hash seed n) (roundOrder (cfg.shuffleRoundCount % 256) shuffle)

theorem roundOrder_reverse (rounds : Nat) (shuffle : Bool) :
    (roundOrder rounds shuffle).reverse = roundOrder rounds !shuffle := by
  cases shuffle <;> simp [roundOrder]

theorem below_shuffled (cfg : CommitteeConfig) (n : Nat) (shuffle : Bool) : Below n (shuffled hash seed cfg n shuffle) :=
  below_walk (below_indexRound hash seed n) _

theorem shuffled_undoes (cfg : CommitteeConfig) (n : Nat) (shuffle : Bool) :
    Undoes n (shuffled hash seed cfg n (!shuffle)) (shuffled hash seed cfg n shuffle) := by
  have h := undoes_walk_reverse (below_indexRound hash seed n) (indexRound_undoes hash seed n)
    (roundOrder (cfg.shuffleRoundCount % 256) shuffle)
  rwa [roundOrder_reverse] at h

theorem computeShuffledIndex_eq (hrounds : 0 < cfg.shuffleRoundCount) {index n : Nat}
    (hindex : index < n) (hn : n ≤ maxShuffleListSize) (shuffle : Bool) :
    computeShuffledIndex hash seed cfg index n shuffle =
      .ok (shuffled hash seed cfg n shuffle index) := by
  rw [computeShuffledIndex, if_neg (by omega), if_neg (by omega), if_neg (by omega)]
  rfl

/-- The list is read along the index map of the opposite direction. -/
theorem innerShuffleList_reads (hrounds : cfg.shuffleRoundCount % 256 ≠ 0) {input : List α}
    (hlength : input.length ≤ maxShuffleListSize) (shuffle : Bool) :
    ∃ out, innerShuffleList hash seed cfg input shuffle = .ok out ∧
      Reads (shuffled hash seed cfg input.length !shuffle) out.toArray input.toArray := by
  unfold innerShuffleList
  split_ifs with hshort
  · -- An index map of at most one entry is the identity.
    refine ⟨input, rfl, (Reads.refl _).congr fun i hi => ?_⟩
    rw [List.size_toArray] at hi
    have hbelow := below_shuffled hash seed cfg input.length (!shuffle) i hi
    simp only [id_eq]
    omega
  · exact absurd hlength (by omega)
  · refine ⟨_, rfl, ?_⟩
    have hmove (ys : Array α) (hys : ys.size = input.length) (round : Nat) :
        Reads (indexRound hash seed input.length round) (listRound hash seed ys round) ys := by
      rw [← hys]
      exact listRound_reads hash seed (by omega) round
    have hreads : Reads _ (List.foldl _ input.toArray _) input.toArray :=
      Reads.foldl (below_indexRound hash seed input.length) hmove
        (roundOrder (cfg.shuffleRoundCount % 256) shuffle) List.size_toArray
    rwa [roundOrder_reverse] at hreads

theorem innerShuffleList_inverse (hrounds : cfg.shuffleRoundCount % 256 ≠ 0) {input out : List α}
    (hlength : input.length ≤ maxShuffleListSize) (shuffle : Bool)
    (hout : innerShuffleList hash seed cfg input shuffle = .ok out) :
    innerShuffleList hash seed cfg out (!shuffle) = .ok input := by
  obtain ⟨_, hmid, hreads⟩ := innerShuffleList_reads hash seed hrounds hlength shuffle
  obtain rfl := Except.ok.inj (hout.symm.trans hmid)
  have hsize : out.length = input.length := by simpa using hreads.1
  obtain ⟨back, hback, hreads'⟩ := innerShuffleList_reads hash seed hrounds
    (hsize.trans_le hlength) (!shuffle)
  rw [Bool.not_not, hsize] at hreads'
  have heq := hreads'.eq_of_undoes hreads (by simpa using below_shuffled hash seed cfg input.length shuffle)
    (by simpa using shuffled_undoes hash seed cfg input.length shuffle)
  rw [hback]
  exact congrArg Except.ok (by simpa using heq)

theorem innerShuffleList_perm (hrounds : cfg.shuffleRoundCount % 256 ≠ 0) {input : List α}
    (hlength : input.length ≤ maxShuffleListSize) (shuffle : Bool) :
    ∃ out, innerShuffleList hash seed cfg input shuffle = .ok out ∧ out.Perm input := by
  obtain ⟨out, hout, hreads⟩ := innerShuffleList_reads hash seed hrounds hlength shuffle
  have hbelow := below_shuffled hash seed cfg input.length
  have hundo := shuffled_undoes hash seed cfg input.length
  refine ⟨out, hout, ?_⟩
  have hperm := hreads.perm (by simpa using hbelow (!shuffle)) (by simpa using hbelow shuffle)
    (by simpa using hundo shuffle) (by simpa using hundo (!shuffle))
  simpa using hperm

/-- For every hash function, the list shuffle is the permutation of the index shuffle: unshuffling
reads the list along `ComputeShuffledIndex`, and both pairs of functions are inverse to each
other. -/
theorem unshuffleList_follows_shuffledIndex (cfg : CommitteeConfig)
    (hmin : 1 ≤ cfg.shuffleRoundCount) (hmax : cfg.shuffleRoundCount ≤ 255) (l : List α)
    (hlength : l.length ≤ 2 ^ 40) :
    ∃ unshuffledList shuffledList,
      unshuffleList hash seed cfg l = .ok unshuffledList ∧
      shuffleList hash seed cfg l = .ok shuffledList ∧
      (∀ i < l.length, ∃ j < l.length,
        computeShuffledIndex hash seed cfg i l.length true = .ok j ∧ unshuffledList[i]? = l[j]?) ∧
      unshuffledList.Perm l ∧ shuffledList.Perm l ∧
      shuffleList hash seed cfg unshuffledList = .ok l ∧
      unshuffleList hash seed cfg shuffledList = .ok l ∧
      ∀ i < l.length,
        (shuffledIndex hash seed cfg i l.length >>= (unShuffledIndex hash seed cfg · l.length)) =
          .ok i ∧
        (unShuffledIndex hash seed cfg i l.length >>= (shuffledIndex hash seed cfg · l.length)) =
          .ok i := by
  have hrounds : cfg.shuffleRoundCount % 256 ≠ 0 := by omega
  obtain ⟨unshuffledList, hun, hunReads⟩ := innerShuffleList_reads hash seed hrounds hlength false
  obtain ⟨_, hun', hunPerm⟩ := innerShuffleList_perm hash seed hrounds hlength false
  obtain rfl := Except.ok.inj (hun.symm.trans hun')
  obtain ⟨shuffledList, hsh, hshPerm⟩ := innerShuffleList_perm hash seed hrounds hlength true
  have hbelow := below_shuffled hash seed cfg l.length
  have hundo := shuffled_undoes hash seed cfg l.length
  have hindex {i : Nat} (hi : i < l.length) (shuffle : Bool) :=
    computeShuffledIndex_eq hash seed (show 0 < cfg.shuffleRoundCount by omega) hi hlength shuffle
  refine ⟨unshuffledList, shuffledList, hun, hsh, fun i hi => ?_, hunPerm, hshPerm,
    innerShuffleList_inverse hash seed hrounds hlength false hun,
    innerShuffleList_inverse hash seed hrounds hlength true hsh, fun i hi => ⟨?_, ?_⟩⟩
  · exact ⟨_, hbelow true i hi, hindex hi true, by simpa using hunReads.2 i (by simpa using hi)⟩
  · rw [shuffledIndex, hindex hi true]
    change computeShuffledIndex hash seed cfg _ _ false = _
    rw [hindex (hbelow true i hi) false]
    exact congrArg _ (hundo true i hi)
  · rw [unShuffledIndex, hindex hi false]
    change computeShuffledIndex hash seed cfg _ _ true = _
    rw [hindex (hbelow false i hi) true]
    exact congrArg _ (hundo false i hi)

/-- A hash function for runs on fixed inputs. -/
def mixing : Hash := fun bytes =>
  Vector.ofFn fun i => bytes.foldl (fun acc b => acc * 31 + b + BitVec.ofNat 8 i) 7

/-- Three rounds over four entries, and back. -/
theorem unshuffleList_follows_shuffledIndex_mixing :
    let cfg : CommitteeConfig := { shuffleRoundCount := 3 }
    let seed : Bytes32 := Vector.replicate 32 0b10100101
    unshuffleList mixing seed cfg [10, 20, 30, 40] = .ok [40, 20, 10, 30] ∧
      shuffleList mixing seed cfg [40, 20, 10, 30] = .ok [10, 20, 30, 40] := by
  obtain ⟨out, -, hun, -, -, -, -, hback, -⟩ := unshuffleList_follows_shuffledIndex mixing
    (Vector.replicate 32 0b10100101) { shuffleRoundCount := 3 } (by decide) (by decide)
    [10, 20, 30, 40] (by decide)
  have heval : unshuffleList mixing (Vector.replicate 32 0b10100101) { shuffleRoundCount := 3 }
    [10, 20, 30, 40] = .ok [40, 20, 10, 30] := by decide +kernel
  obtain rfl := Except.ok.inj (hun.symm.trans heval)
  exact ⟨heval, hback⟩

end Lists

end LightChain.Committees

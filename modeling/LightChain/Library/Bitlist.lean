import LightChain.Library.Positions

/-!
# Bit lists

A bit list has a length, and an operation on two of them fails if their lengths differ. A bit
list is also the set of the positions that it has: `or`, `and` and `not` are union, intersection
and complement, and two lists overlap if their sets meet.
-/
namespace LightChain.Library
open List

abbrev Bitlist := List Bool

namespace Bitlist

def zeros (n : Nat) : Bitlist := List.replicate n false

/-- The bit at a position, which is not set outside the list. -/
def has (b : Bitlist) (i : Nat) : Bool := b.getD i false

def count (b : Bitlist) : Nat := b.countP id

def bitIndices (b : Bitlist) : List Nat := positions (fun _ bit => bit) b

def setBitAt (b : Bitlist) (i : Nat) (bit : Bool) : Bitlist := b.set i bit

def not (b : Bitlist) : Bitlist := b.map (!·)

def zip (f : Bool → Bool → Bool) (a b : Bitlist) : Option Bitlist :=
  if a.length = b.length then some (a.zipWith f b) else none

variable (a b : Bitlist)

def or : Option Bitlist := zip (· || ·) a b

def and : Option Bitlist := zip (· && ·) a b

def andCount : Option Nat := (and a b).map count

def xorCount : Option Nat := (zip Bool.xor a b).map count

def overlaps : Option Bool := (andCount a b).map (0 < ·)

/-- The first list has all bits of the second. -/
def contains : Option Bool := (zip (fun x y => y && !x) a b).map (·.count = 0)

variable {a b c : Bitlist} {f : Bool → Bool → Bool} {i j w : Nat}

theorem has_eq : b.has i = true ↔ b[i]? = some true := by
  unfold has
  rw [getD_eq_getElem?_getD]
  cases b[i]? <;> simp

theorem lt_of_has (h : b.has i = true) : i < b.length :=
  (List.getElem?_eq_some_iff.1 (has_eq.1 h)).1

theorem ext_has (hlen : a.length = b.length) (h : ∀ i, a.has i = b.has i) : a = b := by
  refine ext_getElem hlen fun i ha hb => ?_
  simpa [has, ha, hb] using h i

@[simp] theorem length_zeros : (zeros w).length = w := length_replicate

@[simp] theorem has_zeros : (zeros w).has i = false := by
  unfold has zeros
  by_cases h : i < w <;> simp [h]

@[simp] theorem length_not : b.not.length = b.length := length_map _

@[simp] theorem length_setBitAt {bit : Bool} : (b.setBitAt i bit).length = b.length :=
  length_set

theorem has_setBitAt {bit : Bool} : (b.setBitAt i bit).has j =
    if i = j ∧ j < b.length then bit else b.has j := by
  unfold has setBitAt
  simp only [getD_eq_getElem?_getD, getElem?_set]
  grind

theorem mem_bitIndices : i ∈ b.bitIndices ↔ b.has i = true := by
  unfold bitIndices
  rw [mem_positions, has_eq]
  simp

theorem pairwise_bitIndices : b.bitIndices.Pairwise (· < ·) := positions_pairwise _ _

theorem length_bitIndices : b.bitIndices.length = b.count := length_positions _ _

theorem count_eq_zero : b.count = 0 ↔ ∀ i, b.has i = false := by
  unfold count
  rw [countP_eq_zero]
  constructor
  · intro h i
    by_contra hi
    have hmem := has_eq.1 (by simpa using hi : b.has i = true)
    exact h true (mem_of_getElem? hmem) rfl
  · rintro h bit hbit hset
    obtain ⟨i, hi, rfl⟩ := getElem_of_mem hbit
    have := h i
    simp only [id] at hset
    simp [has, hi, hset] at this

section

variable (h : a.length = b.length)

include h

theorem zip_eq : zip f a b = some (a.zipWith f b) := if_pos h

theorem length_zipWith : (a.zipWith f b).length = b.length := by
  rw [List.length_zipWith, h, min_self]

theorem has_zipWith (hf : f false false = false) :
    Bitlist.has (a.zipWith f b) i = f (a.has i) (b.has i) := by
  unfold has
  by_cases hi : i < b.length
  · simp [hi, h]
  · simp [hi, h, hf]

theorem or_eq : ∃ c, or a b = some c ∧ c.length = b.length ∧ ∀ i, c.has i = (a.has i || b.has i) :=
  ⟨_, zip_eq h, length_zipWith h, fun _ => has_zipWith h rfl⟩

theorem and_eq :
    ∃ c, and a b = some c ∧ c.length = b.length ∧ ∀ i, c.has i = (a.has i && b.has i) :=
  ⟨_, zip_eq h, length_zipWith h, fun _ => has_zipWith h rfl⟩

theorem andCount_eq :
    ∃ n, andCount a b = some n ∧ (n = 0 ↔ ∀ i, ¬ (a.has i = true ∧ b.has i = true)) := by
  obtain ⟨c, hc, -, hhas⟩ := and_eq h
  refine ⟨c.count, by simp [andCount, hc], ?_⟩
  simp [count_eq_zero, hhas]

theorem overlaps_eq :
    ∃ o, overlaps a b = some o ∧ (o = false ↔ ∀ i, ¬ (a.has i = true ∧ b.has i = true)) := by
  obtain ⟨n, hn, hzero⟩ := andCount_eq h
  refine ⟨0 < n, by simp [overlaps, hn], ?_⟩
  rw [← hzero]
  simp

theorem xorCount_eq : ∃ n, xorCount a b = some n ∧ (n = 0 ↔ a = b) := by
  refine ⟨_, by rw [xorCount, zip_eq h, Option.map_some], ?_⟩
  rw [count_eq_zero]
  simp only [has_zipWith (f := Bool.xor) h rfl]
  refine ⟨fun hxor => ext_has h fun i => ?_, fun heq i => by simp [heq]⟩
  simpa using hxor i

theorem contains_eq :
    ∃ o, contains a b = some o ∧ (o = true ↔ ∀ i, b.has i = true → a.has i = true) := by
  refine ⟨_, by rw [contains, zip_eq h, Option.map_some], ?_⟩
  rw [decide_eq_true_eq, count_eq_zero]
  simp only [has_zipWith (f := fun x y => y && !x) h rfl]
  simp

end

theorem contains_eq_some {o : Bool} (h : contains a b = some o) :
    a.length = b.length ∧ (o = true ↔ ∀ i, b.has i = true → a.has i = true) := by
  by_cases hlen : a.length = b.length
  · obtain ⟨o', ho', hiff⟩ := contains_eq hlen
    obtain rfl := Option.some.inj (ho'.symm.trans h)
    exact ⟨hlen, hiff⟩
  · simp [contains, zip, hlen] at h

theorem or_eq_some (h : or a b = some c) :
    a.length = b.length ∧ c.length = b.length ∧ ∀ i, c.has i = (a.has i || b.has i) := by
  by_cases hlen : a.length = b.length
  · obtain ⟨c', hc', hspec⟩ := or_eq hlen
    obtain rfl := Option.some.inj (hc'.symm.trans h)
    exact ⟨hlen, hspec⟩
  · simp [or, zip, hlen] at h

theorem has_unique (hcount : b.count ≤ 1) (hi : b.has i = true) (hj : b.has j = true) : i = j := by
  rw [← length_bitIndices] at hcount
  have hi' := mem_bitIndices.2 hi
  have hj' := mem_bitIndices.2 hj
  match hlist : b.bitIndices with
  | [] => simp [hlist] at hi'
  | [k] =>
    rw [hlist, mem_singleton] at hi' hj'
    exact hi'.trans hj'.symm
  | _ :: _ :: _ => simp [hlist] at hcount

end Bitlist

end LightChain.Library

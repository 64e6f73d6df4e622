import Mathlib

/-!
# Fixed-width integers over `Nat` and `Int`

A `uint64` is a natural number and an `int64` an integer. The operations that can
leave the range say what happens there: `add64`, `sub64` and `mul64` wrap, the
`safe` variants fail, and `int64` folds an integer into the two's complement range.
-/
namespace LightChain.Library

/-- The value a `uint64` variable holds after an unchecked assignment. -/
def uint64 (n : Nat) : Nat := n % 2 ^ 64

def add64 (a b : Nat) : Nat := uint64 (a + b)
def sub64 (a b : Nat) : Nat := uint64 (a + (2 ^ 64 - uint64 b))
def mul64 (a b : Nat) : Nat := uint64 (a * b)

theorem uint64_of_lt {n : Nat} (h : n < 2 ^ 64) : uint64 n = n := Nat.mod_eq_of_lt h

theorem uint64_lt (n : Nat) : uint64 n < 2 ^ 64 := Nat.mod_lt _ (by norm_num)

variable {a b : Nat}

theorem add64_of_lt (h : a + b < 2 ^ 64) : add64 a b = a + b := uint64_of_lt h

theorem mul64_of_lt (h : a * b < 2 ^ 64) : mul64 a b = a * b := uint64_of_lt h

theorem sub64_of_le (ha : a < 2 ^ 64) (h : b ≤ a) : sub64 a b = a - b := by
  have hb : uint64 b = b := uint64_of_lt (h.trans_lt ha)
  unfold sub64
  rw [hb]
  unfold uint64
  have : a + (2 ^ 64 - b) = (a - b) + 2 ^ 64 := by omega
  rw [this, Nat.add_mod_right, Nat.mod_eq_of_lt (by omega)]

/-- Addition that fails instead of wrapping. -/
def safeAdd64 (a b : Nat) : Option Nat := if a + b < 2 ^ 64 then some (a + b) else none

/-- Multiplication that fails instead of wrapping. -/
def safeMul64 (a b : Nat) : Option Nat := if a * b < 2 ^ 64 then some (a * b) else none

theorem safeAdd64_eq_some {a b c : Nat} :
    safeAdd64 a b = some c ↔ a + b < 2 ^ 64 ∧ c = a + b := by
  unfold safeAdd64
  split_ifs with h
  · exact ⟨fun e => ⟨h, (Option.some.inj e).symm⟩, fun e => by rw [e.2]⟩
  · constructor
    · intro e
      cases e
    · intro e
      exact absurd e.1 h

theorem safeMul64_eq_some {a b c : Nat} :
    safeMul64 a b = some c ↔ a * b < 2 ^ 64 ∧ c = a * b := by
  unfold safeMul64
  split_ifs with h
  · exact ⟨fun e => ⟨h, (Option.some.inj e).symm⟩, fun e => by rw [e.2]⟩
  · exact ⟨fun e => (by cases e), fun e => absurd e.1 h⟩

theorem safeMul64_of_lt (h : a * b < 2 ^ 64) : safeMul64 a b = some (a * b) := if_pos h

/-- The value an `int64` variable holds after an unchecked assignment. -/
def int64 (x : Int) : Int := x.bmod (2 ^ 64)

theorem int64_of_range {x : Int} (lo : -2 ^ 63 ≤ x) (hi : x < 2 ^ 63) : int64 x = x := by
  unfold int64
  rw [Int.bmod_eq_of_le] <;> norm_num <;> omega

theorem int64_natCast {n : Nat} (h : n < 2 ^ 63) : int64 n = n := by
  apply int64_of_range <;> omega

theorem le_int64 (x : Int) : -2 ^ 63 ≤ int64 x := by
  have := Int.le_bmod (x := x) (m := 2 ^ 64) (by norm_num)
  unfold int64
  omega

theorem int64_lt (x : Int) : int64 x < 2 ^ 63 := by
  have := Int.bmod_lt (x := x) (m := 2 ^ 64) (by norm_num)
  unfold int64
  omega

theorem int64_le {x : Int} (h : 0 ≤ x) : int64 x ≤ x := by
  have hlt := int64_lt x
  rcases lt_or_ge x (2 ^ 63) with hx | hx
  · rw [int64_of_range (by omega) hx]
  · omega

@[simp] theorem int64_int64_mul (x y : Int) : int64 (int64 x * int64 y) = int64 (x * y) := by
  simp [int64]

@[simp] theorem int64_int64_mul_left (x y : Int) : int64 (int64 x * y) = int64 (x * y) := by
  simp [int64]

@[simp] theorem int64_add_int64 (x y : Int) : int64 (x + int64 y) = int64 (x + y) := by
  simp [int64]

@[simp] theorem int64_int64_add (x y : Int) : int64 (int64 x + y) = int64 (x + y) := by
  simp [int64]

/-- The unsigned word with the bits of an `int64`. -/
def int64ToUint64 (x : Int) : Nat := (x % 2 ^ 64).toNat

theorem int64ToUint64_natCast {n : Nat} (h : n < 2 ^ 64) : int64ToUint64 n = n := by
  unfold int64ToUint64
  omega

theorem tdiv_eq_zero_iff (a b : Int) : a.tdiv b = 0 ↔ b = 0 ∨ a.natAbs < b.natAbs := by
  rw [← Int.natAbs_eq_zero, Int.natAbs_tdiv]
  change a.natAbs / b.natAbs = 0 ↔ _
  rw [Nat.div_eq_zero_iff, Int.natAbs_eq_zero]

end LightChain.Library

import Mathlib

/-!
# A ring that remembers the last entries of a sequence

Entry `y` of a sequence is written to cell `y % n` of a ring of `n` cells, so the ring
holds the last `n` entries. `Recalls` says so, and `Recalls.write` is its step lemma.
-/
namespace LightChain.Library.History

universe u

variable {α : Type u} {n : Nat} [NeZero n] (ring : Vector α n)

def read (y : Nat) : α := ring.get (Fin.ofNat n y)

def write (x : Nat) (a : α) : Vector α n := ring.set (Fin.ofNat n x) a

theorem cell_ne {x y : Nat} (hlt : y < x) (hnear : x < y + n) :
    Fin.ofNat n x ≠ Fin.ofNat n y := by
  intro h
  have hmod : x % n = y % n := congrArg Fin.val h
  have hdvd : n ∣ x - y := (Nat.modEq_iff_dvd' hlt.le).1 hmod.symm
  have := Nat.le_of_dvd (by omega) hdvd
  omega

@[simp] theorem read_write_self (x : Nat) (a : α) : read (write ring x a) x = a := by
  simp [read, write, Vector.get_eq_getElem]

theorem read_write_of_lt {x y : Nat} (a : α) (hlt : y < x) (hnear : x < y + n) :
    read (write ring x a) y = read ring y := by
  have hne : (Fin.ofNat n x).val ≠ (Fin.ofNat n y).val := fun h => cell_ne hlt hnear (Fin.ext h)
  simp only [read, write, Vector.get_eq_getElem]
  exact Vector.getElem_set_ne _ _ hne

/-- Before entry `x` is written, the ring holds the `n` entries before it. -/
def Recalls (entries : Nat → α) (x : Nat) : Prop :=
  ∀ y < x, x ≤ y + n → read ring y = entries y

theorem Recalls.write {ring : Vector α n} {entries : Nat → α} {x : Nat}
    (h : Recalls ring entries x) : Recalls (write ring x (entries x)) entries (x + 1) := by
  intro y hy hnear
  rcases Nat.lt_succ_iff_lt_or_eq.1 hy with hlt | rfl
  · rw [read_write_of_lt ring _ hlt (by omega)]
    exact h y hlt (by omega)
  · exact read_write_self ring y _

end LightChain.Library.History

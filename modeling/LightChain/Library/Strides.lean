import Mathlib

/-!
# Rounding down to a stride

`floorTo s x` is the greatest multiple of `s` up to `x`. A coarser stride is a multiple of
a finer one, and rounding to the coarser forgets a rounding to the finer.
-/
namespace LightChain.Library.Strides

def floorTo (s x : Nat) : Nat := x / s * s

variable {s t x d : Nat}

theorem floorTo_le : floorTo s x ≤ x := Nat.div_mul_le_self x s

theorem dvd_floorTo : s ∣ floorTo s x := Nat.dvd_mul_left s (x / s)

theorem floorTo_of_dvd (h : s ∣ x) : floorTo s x = x := Nat.div_mul_cancel h

theorem floorTo_eq_self : floorTo s x = x ↔ s ∣ x := ⟨fun h => h ▸ dvd_floorTo, floorTo_of_dvd⟩

theorem le_floorTo (hd : s ∣ d) (h : d ≤ x) : d ≤ floorTo s x := by
  rw [← Nat.div_mul_cancel hd]
  exact Nat.mul_le_mul_right s (Nat.div_le_div_right h)

theorem sub_mod_eq_floorTo : x - x % s = floorTo s x := by
  have := Nat.div_add_mod x s
  rw [floorTo, Nat.mul_comm]
  omega

theorem floorTo_floorTo (h : s ∣ t) : floorTo t (floorTo s x) = floorTo t x := by
  apply le_antisymm
  · exact le_floorTo dvd_floorTo (floorTo_le.trans floorTo_le)
  · exact le_floorTo dvd_floorTo (le_floorTo (h.trans dvd_floorTo) floorTo_le)

theorem dvd_floorTo_iff (h : s ∣ t) : t ∣ floorTo s x ↔ floorTo s x = floorTo t x := by
  rw [← floorTo_eq_self, floorTo_floorTo h, eq_comm]

end LightChain.Library.Strides

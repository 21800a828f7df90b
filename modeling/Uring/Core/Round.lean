import Mathlib.Data.Nat.Bitwise
import Mathlib.Tactic

/-!
# Rounding to multiples

The greatest multiple at or below a number and the least one at or above it, over
unbounded numbers. A multiple is determined by the block-sized window it lies in.
-/

namespace Uring.Core

/-- The greatest multiple of `m` at or below `n`. -/
def roundDown (m n : Nat) : Nat := n / m * m

/-- The least multiple of `m` at or above `n`. -/
def roundUp (m n : Nat) : Nat := (n + m - 1) / m * m

variable {m n : Nat}

theorem dvd_roundDown (m n : Nat) : m ∣ roundDown m n := Nat.dvd_mul_left _ _

theorem dvd_roundUp (m n : Nat) : m ∣ roundUp m n := Nat.dvd_mul_left _ _

theorem roundDown_le (m n : Nat) : roundDown m n ≤ n := Nat.div_mul_le_self n m

theorem lt_roundDown_add (hm : 0 < m) (n : Nat) : n < roundDown m n + m := by
  have hdiv := Nat.div_add_mod' n m
  have hmod := Nat.mod_lt n hm
  unfold roundDown
  omega

theorem le_roundUp (hm : 0 < m) (n : Nat) : n ≤ roundUp m n := by
  have hdiv := Nat.div_add_mod' (n + m - 1) m
  have hmod := Nat.mod_lt (n + m - 1) hm
  unfold roundUp
  omega

theorem roundUp_lt (hm : 0 < m) (n : Nat) : roundUp m n < n + m := by
  have hdiv := Nat.div_mul_le_self (n + m - 1) m
  unfold roundUp
  omega

/-- Multiples in the same window of one block are equal. -/
theorem eq_of_dvd_window {a b : Nat} (ha : m ∣ a) (hb : m ∣ b) (hlo : n ≤ a) (hlo' : n ≤ b)
    (hhi : a < n + m) (hhi' : b < n + m) : a = b := by
  obtain ⟨x, rfl⟩ := ha
  obtain ⟨y, rfl⟩ := hb
  have hm : 0 < m := by omega
  have hle {x y : Nat} (hx : m * x < n + m) (hy : n ≤ m * y) : x ≤ y := by
    by_contra hlt
    have hmul : m * (y + 1) ≤ m * x := Nat.mul_le_mul_left m (by omega)
    rw [Nat.mul_add, Nat.mul_one] at hmul
    omega
  rw [le_antisymm (hle hhi hlo') (hle hhi' hlo)]

/-- No multiple at or below `n` is above `roundDown`. -/
theorem le_roundDown {a : Nat} (ha : m ∣ a) (hle : a ≤ n) : a ≤ roundDown m n := by
  obtain ⟨x, rfl⟩ := ha
  rcases Nat.eq_zero_or_pos m with rfl | hm
  · simp
  · have hx : x ≤ n / m := (Nat.le_div_iff_mul_le hm).mpr (by rwa [Nat.mul_comm])
    rw [Nat.mul_comm]
    exact Nat.mul_le_mul_right m hx

/-- No multiple at or above `n` is below `roundUp`. -/
theorem roundUp_le (hm : 0 < m) {b : Nat} (hb : m ∣ b) (hle : n ≤ b) : roundUp m n ≤ b := by
  by_contra hlt
  have hwindow := eq_of_dvd_window (dvd_roundUp m n) hb (le_roundUp hm n) hle (roundUp_lt hm n)
    ((not_le.mp hlt).trans (roundUp_lt hm n))
  omega

end Uring.Core

import Mathlib

namespace C

-- The value of a 32-bit `int` after the mathematical result `n` has been stored in it.
def int (n : ℤ) : ℤ :=
  n.bmod (2 ^ 32)

-- The mathematical results that fit.
def Fits (n : ℤ) : Prop :=
  -2 ^ 31 ≤ n ∧ n < 2 ^ 31
deriving Decidable

theorem int_add_left (m n : ℤ) : int (int m + n) = int (m + n) :=
  Int.bmod_add_bmod

-- A result that fits is stored as it is.
theorem int_eq {n : ℤ} (h₁ : -2 ^ 31 ≤ n) (h₂ : n < 2 ^ 31) : int n = n :=
  Int.bmod_eq_of_le (by omega) (by omega)

theorem Fits.int_eq {n : ℤ} (h : Fits n) : int n = n :=
  C.int_eq h.left h.right

theorem int_fits (n : ℤ) : Fits (int n) := by
  simp only [Fits, int, Int.bmod_def]
  omega

-- The stored number and the result differ by a multiple of 2^32.
theorem int_modEq (n : ℤ) : int n ≡ n [ZMOD 2 ^ 32] :=
  Int.bmod_emod

theorem int_nonneg_iff {n : ℤ} : 0 ≤ int n ↔ n % 2 ^ 32 < 2 ^ 31 := by
  simp only [int, Int.bmod_def]
  omega

theorem int_eq_zero_iff {n : ℤ} : int n = 0 ↔ n % 2 ^ 32 = 0 := by
  simp only [int, Int.bmod_def]
  omega

theorem int_le {n : ℤ} (h : 0 ≤ n) : int n ≤ n := by
  simp only [int, Int.bmod_def]
  omega

theorem Fits.eq_zero_iff {n : ℤ} (h : Fits n) : n = 0 ↔ n % 2 ^ 32 = 0 := by
  rw [← int_eq_zero_iff, h.int_eq]

end C

/-
# Unsigned 64-bit arithmetic

Addresses and sizes of the kernel are 64-bit words. They are natural numbers
here, and every addition or subtraction of the code is one of the two wrapping
operations below.
-/

import Mathlib.Data.Nat.Bitwise

namespace Cyanea

/-- `a + b` of two 64-bit words. -/
def add64 (a b : ℕ) : ℕ := (a + b) % 2 ^ 64

/-- `a - b` of two 64-bit words. -/
def sub64 (a b : ℕ) : ℕ := (a + (2 ^ 64 - b % 2 ^ 64)) % 2 ^ 64

/-- `~a` of a 64-bit word. -/
def not64 (a : ℕ) : ℕ := 2 ^ 64 - 1 - a % 2 ^ 64

/-- A 64-bit word that is stored in an `int`. -/
def intOfWord (x : ℕ) : ℤ := (x : ℤ).bmod (2 ^ 32)

/-- An `int` that is converted to a 64-bit word. -/
def wordOfInt (i : ℤ) : ℕ := (i % 2 ^ 64).toNat

theorem add64_eq {a b : ℕ} (h : a + b < 2 ^ 64) : add64 a b = a + b :=
  Nat.mod_eq_of_lt h

theorem sub64_eq {a b : ℕ} (h : b ≤ a) (ha : a < 2 ^ 64) : sub64 a b = a - b := by
  rw [sub64]
  omega

theorem add64_lt (a b : ℕ) : add64 a b < 2 ^ 64 := Nat.mod_lt _ (by decide)

theorem sub64_lt (a b : ℕ) : sub64 a b < 2 ^ 64 := Nat.mod_lt _ (by decide)

theorem intOfWord_eq {x : ℕ} (h : x < 2 ^ 31) : intOfWord x = x := by
  have hlt : (x : ℤ) < 2 ^ 31 := by exact_mod_cast h
  exact Int.bmod_eq_of_le (by omega) (by omega)

theorem wordOfInt_eq {i : ℤ} {x : ℕ} (hi : i = x) (h : x < 2 ^ 64) : wordOfInt i = x := by
  rw [wordOfInt]
  omega

/-- Masking with `~(2^k - 1)` clears the low bits. -/
theorem and_not64_eq {a k : ℕ} (ha : a < 2 ^ 64) (hk : k ≤ 64) :
    a &&& not64 (2 ^ k - 1) = 2 ^ k * (a / 2 ^ k) := by
  have hpow : 2 ^ k ≤ 2 ^ 64 := Nat.pow_le_pow_right (by decide) hk
  have hpos : 0 < 2 ^ k := Nat.two_pow_pos k
  have hmask : (2 ^ k - 1) % 2 ^ 64 = 2 ^ k - 1 := Nat.mod_eq_of_lt (by omega)
  have hnot : not64 (2 ^ k - 1) = 2 ^ 64 - (2 ^ k - 1 + 1) := by
    rw [not64, hmask]
    omega
  apply Nat.eq_of_testBit_eq
  intro i
  rw [Nat.testBit_and, hnot, Nat.testBit_two_pow_sub_succ (by omega),
    Nat.testBit_two_pow_sub_one, Nat.testBit_two_pow_mul, Nat.testBit_div_two_pow]
  by_cases hki : k ≤ i
  · have hsub : i - k + k = i := Nat.sub_add_cancel hki
    rw [hsub]
    by_cases hi : i < 64
    · simp [hki, hi, not_lt.mpr hki]
    · have hbit : a.testBit i = false :=
        Nat.testBit_lt_two_pow (ha.trans_le (Nat.pow_le_pow_right (by decide) (not_lt.mp hi)))
      simp [hbit]
  · simp [hki, not_le.mp hki]

end Cyanea

/-
# Reflected cyclic redundancy checks

The remainder of a bit string by a polynomial, in a register that is read from its low end:
a bit is added to the low end of the register, which then moves down by one, and the
polynomial is taken off where a one fell out. Moving down is linear, so several bits can be
added at once, and the bits that fall out of a register can be looked up in a table.
-/

import Cyanea.Math.Bits

namespace Cyanea.Math.Crc

open Bits

variable {w : ℕ} (poly : BitVec w)

/-- Move the register down by one. -/
def shift (c : BitVec w) : BitVec w :=
  if c.getLsbD 0 then (c >>> 1) ^^^ poly else c >>> 1

/-- Move it down `k` times. -/
def shifts : ℕ → BitVec w → BitVec w
  | 0, c => c
  | k + 1, c => shifts k (shift poly c)

/-- Take in one bit. -/
def feed (c : BitVec w) (b : Bool) : BitVec w :=
  shift poly (c ^^^ BitVec.ofNat w b.toNat)

/-- Take in a bit string. -/
def remainder (c : BitVec w) (bits : List Bool) : BitVec w := bits.foldl (feed poly) c

/-- The check of a byte string: the register starts with all ones and is inverted in the
end. -/
def check (data : List UInt8) : BitVec w :=
  remainder poly (BitVec.allOnes w) (ofBytes data) ^^^ BitVec.allOnes w

/-- Take in a byte: all of it is added to the low end, which then moves down bit by bit. -/
def feedByte (c : BitVec w) (b : UInt8) : BitVec w :=
  shifts poly 8 (c ^^^ BitVec.ofNat w b.toNat)

variable {poly}

theorem shift_xor (a b : BitVec w) : shift poly (a ^^^ b) = shift poly a ^^^ shift poly b := by
  have hcancel : ∀ x y : BitVec w, (x ^^^ poly) ^^^ (y ^^^ poly) = x ^^^ y := by
    intro x y
    rw [BitVec.xor_assoc, BitVec.xor_comm y, ← BitVec.xor_assoc poly, BitVec.xor_self,
      BitVec.zero_xor]
  simp only [shift, BitVec.getLsbD_xor, BitVec.ushiftRight_xor_distrib]
  cases a.getLsbD 0 <;> cases b.getLsbD 0
  · simp
  · simp [BitVec.xor_assoc]
  · simp [BitVec.xor_assoc, BitVec.xor_comm poly]
  · simp [hcancel]

theorem shifts_xor (k : ℕ) (a b : BitVec w) :
    shifts poly k (a ^^^ b) = shifts poly k a ^^^ shifts poly k b := by
  induction k generalizing a b with
  | zero => rfl
  | succ k ih => rw [shifts, shift_xor, ih, shifts, shifts]

theorem shift_of_even {c : BitVec w} (h : c.getLsbD 0 = false) : shift poly c = c >>> 1 := by
  rw [shift, h]
  rfl

/-- A register whose low bits are clear only moves down. -/
theorem shifts_of_clear {k : ℕ} {c : BitVec w} (h : ∀ i < k, c.getLsbD i = false) :
    shifts poly k c = c >>> k := by
  induction k generalizing c with
  | zero => simp [shifts]
  | succ k ih =>
      rw [shifts, shift_of_even (h 0 (Nat.succ_pos k)), ih, ← BitVec.shiftRight_add,
        Nat.add_comm]
      intro i hi
      rw [BitVec.getLsbD_ushiftRight]
      exact h (1 + i) (by omega)

/-- What falls out of the register depends on its low bits only. -/
theorem shifts_eq_xor (k : ℕ) (c : BitVec w) :
    shifts poly k c = shifts poly k (c &&& BitVec.ofNat w (2 ^ k - 1)) ^^^ (c >>> k) := by
  have hsplit : c = (c &&& BitVec.ofNat w (2 ^ k - 1)) ^^^
      (c &&& ~~~BitVec.ofNat w (2 ^ k - 1)) := by
    ext i hi
    simp only [BitVec.getElem_xor, BitVec.getElem_and, BitVec.getElem_not]
    have hbits : ∀ b m : Bool, b = ((b && m) ^^ (b && !m)) := by decide
    exact hbits _ _
  have hclear : ∀ i < k, (c &&& ~~~BitVec.ofNat w (2 ^ k - 1)).getLsbD i = false := by
    intro i hi
    simp only [BitVec.getLsbD_and, BitVec.getLsbD_not, BitVec.getLsbD_ofNat,
      Nat.testBit_two_pow_sub_one]
    simp [hi]
  have hhigh : (c &&& ~~~BitVec.ofNat w (2 ^ k - 1)) >>> k = c >>> k := by
    apply BitVec.eq_of_getLsbD_eq
    intro i _
    simp only [BitVec.getLsbD_ushiftRight, BitVec.getLsbD_and, BitVec.getLsbD_not,
      BitVec.getLsbD_ofNat, Nat.testBit_two_pow_sub_one]
    by_cases hw : k + i < w
    · simp [hw]
    · simp [BitVec.getLsbD_of_ge c (k + i) (not_lt.1 hw)]
  conv_lhs => rw [hsplit]
  rw [shifts_xor, shifts_of_clear hclear, hhigh]

theorem shift_double {n : ℕ} (h : 2 * n < 2 ^ w) :
    shift poly (BitVec.ofNat w (2 * n)) = BitVec.ofNat w n := by
  have heven : (BitVec.ofNat w (2 * n)).getLsbD 0 = false := by
    rw [BitVec.getLsbD_ofNat, Nat.testBit_zero]
    simp
  rw [shift_of_even heven]
  apply BitVec.eq_of_toNat_eq
  rw [BitVec.toNat_ushiftRight, BitVec.toNat_ofNat, BitVec.toNat_ofNat, Nat.mod_eq_of_lt h,
    Nat.mod_eq_of_lt (by omega), Nat.shiftRight_eq_div_pow]
  omega

/-- Bits can be taken in together. -/
theorem remainder_ofNat {k x : ℕ} (hx : x < 2 ^ k) (hk : k ≤ w) (c : BitVec w) :
    remainder poly c (ofNat k x) = shifts poly k (c ^^^ BitVec.ofNat w x) := by
  induction k generalizing x c with
  | zero =>
      obtain rfl : x = 0 := by omega
      simp [remainder, shifts]
  | succ k ih =>
      have hpow : 2 ^ (k + 1) ≤ 2 ^ w := Nat.pow_le_pow_right Nat.two_pos hk
      have hbit : x = (x.testBit 0).toNat ^^^ 2 * (x / 2) := by
        apply Nat.eq_of_testBit_eq
        intro i
        rw [Nat.testBit_xor]
        cases i with
        | zero => cases x.testBit 0 <;> simp
        | succ i => cases x.testBit 0 <;> simp [Nat.testBit_succ]
      have hsplit : BitVec.ofNat w x =
          BitVec.ofNat w (x.testBit 0).toNat ^^^ BitVec.ofNat w (2 * (x / 2)) := by
        rw [← BitVec.ofNat_xor, ← hbit]
      rw [ofNat_succ]
      show remainder poly (feed poly c (x.testBit 0)) (ofNat k (x / 2)) = _
      rw [ih (by omega) (by omega), shifts, hsplit, ← BitVec.xor_assoc, shift_xor,
        shift_double (by omega)]
      rfl

theorem remainder_append (c : BitVec w) (bits rest : List Bool) :
    remainder poly c (bits ++ rest) = remainder poly (remainder poly c bits) rest :=
  List.foldl_append

theorem remainder_byte (hw : 8 ≤ w) (c : BitVec w) (b : UInt8) :
    remainder poly c (ofBytes [b]) = feedByte poly c b := by
  have hbyte : ofBytes [b] = ofNat 8 b.toNat := by simp
  rw [hbyte, remainder_ofNat b.toNat_lt hw, feedByte]

/-- A byte string is taken in byte by byte. -/
theorem remainder_ofBytes (hw : 8 ≤ w) (c : BitVec w) (data : List UInt8) :
    remainder poly c (ofBytes data) = data.foldl (feedByte poly) c := by
  induction data generalizing c with
  | nil => rfl
  | cons b data ih =>
      have hsplit : ofBytes (b :: data) = ofBytes [b] ++ ofBytes data := by simp
      rw [hsplit, remainder_append, remainder_byte hw, ih, List.foldl_cons]

end Cyanea.Math.Crc

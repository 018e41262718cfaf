/-
# Bit strings

A number as the list of its bits, least significant first, and a byte string as the list
of the bits of its bytes. Packed formats are read off such lists from the front.
-/

import Mathlib.Data.Nat.Bitwise
import Mathlib.Data.List.Basic
import Mathlib.Data.List.Induction
import Mathlib.Tactic.Ring

namespace Cyanea.Math.Bits

/-- The `k` low bits of a number, least significant first. -/
def ofNat (k n : ℕ) : List Bool :=
  (List.range k).map n.testBit

/-- The number with these bits, least significant first. -/
def toNat : List Bool → ℕ
  | [] => 0
  | b :: bits => b.toNat + 2 * toNat bits

/-- The number with these bits, most significant first. -/
def toNatMsb (bits : List Bool) : ℕ :=
  bits.foldl (fun v b => 2 * v + b.toNat) 0

/-- The bits of a byte string, byte after byte. -/
def ofBytes (bytes : List UInt8) : List Bool :=
  bytes.flatMap fun b => ofNat 8 b.toNat

/-! ## Numbers -/

@[simp] theorem length_ofNat (k n : ℕ) : (ofNat k n).length = k := by
  simp [ofNat]

@[simp] theorem ofNat_zero (n : ℕ) : ofNat 0 n = [] := rfl

theorem ofNat_succ (k n : ℕ) : ofNat (k + 1) n = n.testBit 0 :: ofNat k (n / 2) := by
  simp [ofNat, List.range_succ_eq_map, Function.comp_def, Nat.testBit_succ]

theorem take_ofNat {k m : ℕ} (h : k ≤ m) (n : ℕ) : (ofNat m n).take k = ofNat k n := by
  rw [ofNat, ← List.map_take, List.take_range, Nat.min_eq_left h, ofNat]

theorem drop_ofNat (k m n : ℕ) : (ofNat m n).drop k = ofNat (m - k) (n >>> k) := by
  apply List.ext_getElem (by simp)
  intro i _ _
  simp [ofNat, Nat.testBit_shiftRight]

/-- Putting a number above the bits of another. -/
theorem ofNat_or_shiftLeft {a x : ℕ} {m : ℕ} (ha : a < 2 ^ m) (k : ℕ) :
    ofNat (m + k) (a ||| x <<< m) = ofNat m a ++ ofNat k x := by
  apply List.ext_getElem (by simp)
  intro i _ _
  rw [List.getElem_append]
  split
  · next hi =>
      rw [length_ofNat] at hi
      simp [ofNat, Nat.testBit_or, Nat.testBit_shiftLeft, hi]
  · next hi =>
      rw [length_ofNat, not_lt] at hi
      have hzero : a.testBit i = false :=
        Nat.testBit_lt_two_pow (lt_of_lt_of_le ha (Nat.pow_le_pow_right (by omega) hi))
      simp [ofNat, Nat.testBit_or, Nat.testBit_shiftLeft, hi, hzero]

theorem or_shiftLeft_lt {a x m k : ℕ} (ha : a < 2 ^ m) (hx : x < 2 ^ k) :
    a ||| x <<< m < 2 ^ (m + k) := by
  apply Nat.or_lt_two_pow
  · exact lt_of_lt_of_le ha (Nat.pow_le_pow_right (by omega) (by omega))
  · rw [Nat.shiftLeft_eq, Nat.pow_add, mul_comm]
    exact Nat.mul_lt_mul_of_pos_left hx (Nat.two_pow_pos m)

@[simp] theorem toNat_ofNat (k n : ℕ) : toNat (ofNat k n) = n % 2 ^ k := by
  induction k generalizing n with
  | zero => simp [toNat, Nat.mod_one]
  | succ k ih =>
      rw [ofNat_succ, toNat, ih, Nat.testBit_zero, pow_succ', Nat.mod_mul]
      rcases Nat.mod_two_eq_zero_or_one n with h | h <;> simp [h]

theorem toNat_lt (bits : List Bool) : toNat bits < 2 ^ bits.length := by
  induction bits with
  | nil => simp [toNat]
  | cons b bits ih =>
      rw [toNat, List.length_cons, pow_succ']
      cases b <;> simp <;> omega

theorem ofNat_toNat (bits : List Bool) : ofNat bits.length (toNat bits) = bits := by
  induction bits with
  | nil => rfl
  | cons b bits ih =>
      rw [List.length_cons, ofNat_succ, toNat]
      have hhalf : (b.toNat + 2 * toNat bits) / 2 = toNat bits := by
        have hb := Bool.toNat_lt b
        omega
      rw [hhalf, ih]
      cases b <;> simp

theorem toNat_append (bits rest : List Bool) :
    toNat (bits ++ rest) = toNat bits + 2 ^ bits.length * toNat rest := by
  induction bits with
  | nil => simp [toNat]
  | cons b bits ih =>
      rw [List.cons_append, toNat, ih, toNat, List.length_cons, pow_succ']
      ring

theorem toNatMsb_concat (bits : List Bool) (b : Bool) :
    toNatMsb (bits ++ [b]) = 2 * toNatMsb bits + b.toNat := by
  simp [toNatMsb]

theorem toNatMsb_eq (bits : List Bool) : toNatMsb bits = toNat bits.reverse := by
  induction bits using List.reverseRecOn with
  | nil => rfl
  | append_singleton bits b ih =>
      rw [toNatMsb_concat, ih, List.reverse_concat, toNat, Nat.add_comm]

/-- A number below `2 ^ k` is spelled by one string of `k` bits. -/
theorem existsUnique_toNatMsb {k v : ℕ} (hv : v < 2 ^ k) :
    ∃! bits : List Bool, bits.length = k ∧ toNatMsb bits = v := by
  refine ⟨(ofNat k v).reverse, ⟨by simp, ?_⟩, ?_⟩
  · rw [toNatMsb_eq, List.reverse_reverse, toNat_ofNat, Nat.mod_eq_of_lt hv]
  · rintro bits ⟨rfl, rfl⟩
    have hback := ofNat_toNat bits.reverse
    rw [List.length_reverse] at hback
    rw [toNatMsb_eq, hback, List.reverse_reverse]

/-! ## Bytes -/

@[simp] theorem ofBytes_nil : ofBytes [] = [] := rfl

@[simp] theorem ofBytes_cons (b : UInt8) (bytes : List UInt8) :
    ofBytes (b :: bytes) = ofNat 8 b.toNat ++ ofBytes bytes := rfl

theorem ofBytes_append (bytes rest : List UInt8) :
    ofBytes (bytes ++ rest) = ofBytes bytes ++ ofBytes rest :=
  List.flatMap_append

@[simp] theorem length_ofBytes (bytes : List UInt8) :
    (ofBytes bytes).length = 8 * bytes.length := by
  induction bytes with
  | nil => rfl
  | cons b bytes ih => rw [ofBytes_cons, List.length_append, ih, length_ofNat,
      List.length_cons]; omega

/-- Whole bytes are dropped eight bits at a time. -/
theorem drop_ofBytes (bytes : List UInt8) (i : ℕ) :
    (ofBytes bytes).drop (8 * i) = ofBytes (bytes.drop i) := by
  induction i generalizing bytes with
  | zero => rfl
  | succ i ih =>
      cases bytes with
      | nil => simp
      | cons b bytes =>
          rw [ofBytes_cons, List.drop_succ_cons, ← ih, Nat.mul_succ, Nat.add_comm, ← List.drop_drop,
            List.drop_left' (length_ofNat 8 b.toNat)]

end Cyanea.Math.Bits

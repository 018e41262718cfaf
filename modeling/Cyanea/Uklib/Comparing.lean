/-
# Comparing memory

The model of `memcmp` in `uklib/string.c`. An array is given by its bytes, each with its
distance from the beginning. The loop is left at the first pair that does not differ, so it
is the last pair that decides, or none at all.
-/

import Mathlib.Data.Int.Notation
import Mathlib.Data.Nat.Notation
import Mathlib.Logic.Basic
import Mathlib.Tactic.ByContra

namespace Cyanea.Uklib

/-! ## The code -/

/-- `*s1 - *s2`. -/
def byteDifference (b1 b2 : UInt8) : ℤ := b1.toNat - b2.toNat

/-- The loop of `memcmp` from the bytes at `i` on. -/
def memcmpLoop (str1 str2 : ℕ → UInt8) (i : ℕ) : (n : ℕ) → (res : ℤ) → ℤ
  | 0, res => res
  | n + 1, _ =>
      let res := byteDifference (str1 i) (str2 i)
      if res = 0 then res else memcmpLoop str1 str2 (i + 1) n res

def memcmp (str1 str2 : ℕ → UInt8) (n : ℕ) : ℤ := memcmpLoop str1 str2 0 n 0

/-! ## What is asked for -/

/-- The first `n` bytes are the same. -/
def SameBytes (str1 str2 : ℕ → UInt8) (n : ℕ) : Prop := ∀ i < n, str1 i = str2 i

/-- The arrays differ at `k` for the first time. -/
def FirstDifference (str1 str2 : ℕ → UInt8) (k : ℕ) : Prop :=
  SameBytes str1 str2 k ∧ str1 k ≠ str2 k

/-- Zero stands for the same bytes, and otherwise the sign is that of the first difference;
it is turned around with the arrays. -/
structure ComparesBytes (str1 str2 : ℕ → UInt8) (n : ℕ) : Prop where
  zero : memcmp str1 str2 n = 0 ↔ SameBytes str1 str2 n
  sign : ∀ k < n, FirstDifference str1 str2 k →
    (memcmp str1 str2 n).sign = (byteDifference (str1 k) (str2 k)).sign
  opposite : (memcmp str2 str1 n).sign = -(memcmp str1 str2 n).sign

/-- Strings of `n` bytes are totally ordered by what is not positive. -/
structure OrdersStrings (n : ℕ) : Prop where
  total : ∀ str1 str2, memcmp str1 str2 n ≤ 0 ∨ memcmp str2 str1 n ≤ 0
  trans : ∀ str1 str2 str3, memcmp str1 str2 n ≤ 0 → memcmp str2 str3 n ≤ 0 →
    memcmp str1 str3 n ≤ 0
  antisymm : ∀ str1 str2, memcmp str1 str2 n ≤ 0 → memcmp str2 str1 n ≤ 0 →
    SameBytes str1 str2 n

/-- All bytes differ, and the last pair in the same direction as the first. -/
def DiffersThroughout (str1 str2 : ℕ → UInt8) (n : ℕ) : Prop :=
  (∀ i < n, str1 i ≠ str2 i) ∧ (str1 0 < str2 0 ↔ str1 (n - 1) < str2 (n - 1))

/-! ## Differences -/

section Differences

variable {b1 b2 : UInt8}

theorem byteDifference_eq_zero : byteDifference b1 b2 = 0 ↔ b1 = b2 := by
  rw [byteDifference, ← UInt8.toNat_inj]
  omega

theorem byteDifference_comm (b1 b2 : UInt8) : byteDifference b2 b1 = -byteDifference b1 b2 := by
  rw [byteDifference, byteDifference]
  omega

theorem byteDifference_neg : byteDifference b1 b2 < 0 ↔ b1 < b2 := by
  rw [byteDifference, UInt8.lt_iff_toNat_lt]
  omega

/-- Two differences have the same sign if they go in the same direction. -/
theorem sign_byteDifference {c1 c2 : UInt8} (hb : b1 ≠ b2) (hc : c1 ≠ c2) :
    (byteDifference b1 b2).sign = (byteDifference c1 c2).sign ↔ (b1 < b2 ↔ c1 < c2) := by
  rw [← byteDifference_neg, ← byteDifference_neg]
  rw [ne_eq, ← byteDifference_eq_zero] at hb hc
  obtain hb | hb := Int.lt_or_gt_of_ne hb <;> obtain hc | hc := Int.lt_or_gt_of_ne hc
  · simp [Int.sign_eq_neg_one_of_neg, hb, hc]
  · simp [Int.sign_eq_neg_one_of_neg hb, Int.sign_eq_one_of_pos hc, hb, Int.le_of_lt hc]
  · simp [Int.sign_eq_one_of_pos hb, Int.sign_eq_neg_one_of_neg hc, hc, Int.le_of_lt hb]
  · simp [Int.sign_eq_one_of_pos, hb, hc, Int.not_lt_of_ge (Int.le_of_lt hb),
      Int.not_lt_of_ge (Int.le_of_lt hc)]

end Differences

/-! ## The loop -/

section Loop

variable {str1 str2 : ℕ → UInt8} {i n : ℕ}

/-- An equal pair ends the loop. -/
theorem memcmpLoop_same {k : ℕ} {res : ℤ} (hlow : i ≤ k) (hhigh : k < i + n)
    (hsame : str1 k = str2 k) : memcmpLoop str1 str2 i n res = 0 := by
  induction n generalizing i res with
  | zero => omega
  | succ n ih =>
      rw [memcmpLoop]
      by_cases hzero : byteDifference (str1 i) (str2 i) = 0
      · exact (if_pos hzero).trans hzero
      · have hne : i ≠ k := fun h => hzero (byteDifference_eq_zero.mpr (h ▸ hsame))
        exact (if_neg hzero).trans (ih (by omega) (by omega))

/-- Otherwise it comes to the last pair. -/
theorem memcmpLoop_last {res : ℤ} (h : ∀ k, i ≤ k → k < i + (n + 1) → str1 k ≠ str2 k) :
    memcmpLoop str1 str2 i (n + 1) res = byteDifference (str1 (i + n)) (str2 (i + n)) := by
  induction n generalizing i res with
  | zero =>
      rw [memcmpLoop]
      exact if_neg (byteDifference_eq_zero.not.mpr (h i (Nat.le_refl i) (by omega)))
  | succ n ih =>
      have hne := byteDifference_eq_zero.not.mpr (h i (Nat.le_refl i) (by omega))
      rw [memcmpLoop]
      refine (if_neg hne).trans ?_
      rw [ih fun k hlow hhigh => h k (by omega) (by omega), Nat.add_right_comm, Nat.add_assoc]

theorem memcmp_same {k : ℕ} (hk : k < n) (hsame : str1 k = str2 k) : memcmp str1 str2 n = 0 :=
  memcmpLoop_same (Nat.zero_le k) (by omega) hsame

theorem memcmp_last (hn : 0 < n) (h : ∀ k < n, str1 k ≠ str2 k) :
    memcmp str1 str2 n = byteDifference (str1 (n - 1)) (str2 (n - 1)) := by
  obtain ⟨n, rfl⟩ := Nat.exists_eq_succ_of_ne_zero (Nat.ne_of_gt hn)
  rw [memcmp, Nat.succ_eq_add_one, memcmpLoop_last fun k _ hk => h k (by omega), Nat.zero_add,
    Nat.add_sub_cancel]

theorem memcmpLoop_comm (str1 str2 : ℕ → UInt8) (i n : ℕ) (res : ℤ) :
    memcmpLoop str2 str1 i n (-res) = -memcmpLoop str1 str2 i n res := by
  induction n generalizing i res with
  | zero => rfl
  | succ n ih =>
      rw [memcmpLoop, memcmpLoop, byteDifference_comm (str1 i), ih]
      by_cases hzero : byteDifference (str1 i) (str2 i) = 0
      · rw [if_pos hzero, if_pos (by omega)]
      · rw [if_neg hzero, if_neg (by omega)]

theorem memcmp_comm (str1 str2 : ℕ → UInt8) (n : ℕ) :
    memcmp str2 str1 n = -memcmp str1 str2 n :=
  memcmpLoop_comm str1 str2 0 n 0

end Loop

/-! ## What is returned -/

section Results

variable {str1 str2 : ℕ → UInt8} {n : ℕ}

theorem not_sameBytes : ¬ SameBytes str1 str2 n ↔ ∃ k < n, str1 k ≠ str2 k := by
  simp only [SameBytes, not_forall, exists_prop, ne_eq]

/-- Where all bytes differ, the first pair is the first difference. -/
theorem firstDifference_iff (h : ∀ i < n, str1 i ≠ str2 i) {k : ℕ} (hk : k < n) :
    FirstDifference str1 str2 k ↔ k = 0 := by
  constructor
  · rintro ⟨hsame, -⟩
    by_contra hzero
    exact h 0 (by omega) (hsame 0 (by omega))
  · rintro rfl
    exact ⟨fun i hi => absurd hi (Nat.not_lt_zero i), h 0 hk⟩

theorem comparesBytes_iff :
    ComparesBytes str1 str2 n ↔ SameBytes str1 str2 n ∨ DiffersThroughout str1 str2 n := by
  have hopposite : (memcmp str2 str1 n).sign = -(memcmp str1 str2 n).sign := by
    rw [memcmp_comm, Int.sign_neg]
  constructor
  · intro h
    by_cases hsame : SameBytes str1 str2 n
    · exact Or.inl hsame
    · have hall : ∀ i < n, str1 i ≠ str2 i := fun i hi heq =>
        hsame (h.zero.mp (memcmp_same hi heq))
      obtain ⟨k, hk, -⟩ := not_sameBytes.mp hsame
      have hn : 0 < n := Nat.zero_lt_of_lt hk
      have hsign := h.sign 0 hn ((firstDifference_iff hall hn).mpr rfl)
      rw [memcmp_last hn hall,
        sign_byteDifference (hall _ (Nat.sub_one_lt_of_lt hn)) (hall 0 hn)] at hsign
      exact Or.inr ⟨hall, hsign.symm⟩
  · rintro (hsame | ⟨hall, hdirection⟩)
    · have hzero : memcmp str1 str2 n = 0 := by
        cases n with
        | zero => rfl
        | succ n => exact memcmp_same (Nat.succ_pos n) (hsame 0 (Nat.succ_pos n))
      exact ⟨iff_of_true hzero hsame, fun k hk hfirst => absurd (hsame k hk) hfirst.2, hopposite⟩
    · obtain rfl | hn := Nat.eq_zero_or_pos n
      · exact ⟨iff_of_true rfl fun i hi => absurd hi (Nat.not_lt_zero i),
          fun k hk => absurd hk (Nat.not_lt_zero k), hopposite⟩
      · have hlast := hall _ (Nat.sub_one_lt_of_lt hn)
        refine ⟨?_, fun k hk hfirst => ?_, hopposite⟩
        · rw [memcmp_last hn hall, byteDifference_eq_zero]
          exact iff_of_false hlast fun hsame => hlast (hsame _ (Nat.sub_one_lt_of_lt hn))
        · rw [(firstDifference_iff hall hk).mp hfirst, memcmp_last hn hall,
            sign_byteDifference hlast (hall 0 hn)]
          exact hdirection.symm

/-- Two strings that start with the same byte and then differ. -/
theorem not_ordersStrings (hn : 2 ≤ n) : ¬ OrdersStrings n := by
  intro h
  have hzero : memcmp (fun _ => 0) (fun i => if i = 1 then 1 else 0) n = 0 :=
    memcmp_same (Nat.zero_lt_of_lt hn) rfl
  have hsame := h.antisymm _ _ (Int.le_of_eq hzero)
    (Int.le_of_eq (by rw [memcmp_comm, hzero, Int.neg_zero]))
  exact absurd (hsame 1 hn) (by decide)

theorem memcmp_one (str1 str2 : ℕ → UInt8) :
    memcmp str1 str2 1 = byteDifference (str1 0) (str2 0) := by
  rw [memcmp, memcmpLoop]
  by_cases hzero : byteDifference (str1 0) (str2 0) = 0
  · exact if_pos hzero
  · exact if_neg hzero

theorem ordersStrings_iff : OrdersStrings n ↔ n ≤ 1 := by
  refine ⟨fun h => ?_, fun hn => ?_⟩
  · by_contra hn
    exact not_ordersStrings (by omega) h
  · obtain rfl | rfl := Nat.le_one_iff_eq_zero_or_eq_one.mp hn
    · exact ⟨fun _ _ => Or.inl (Int.le_refl 0), fun _ _ _ _ _ => Int.le_refl 0,
        fun _ _ _ _ i hi => absurd hi (Nat.not_lt_zero i)⟩
    · have hle : ∀ str1 str2, memcmp str1 str2 1 ≤ 0 ↔ (str1 0).toNat ≤ (str2 0).toNat := by
        intro str1 str2
        rw [memcmp_one, byteDifference]
        omega
      refine ⟨fun str1 str2 => ?_, fun str1 str2 str3 h12 h23 => ?_,
        fun str1 str2 h12 h21 i hi => ?_⟩
      · rw [hle, hle]
        exact Nat.le_total _ _
      · rw [hle] at *
        exact Nat.le_trans h12 h23
      · rw [hle] at *
        rw [Nat.lt_one_iff.mp hi, ← UInt8.toNat_inj]
        exact Nat.le_antisymm h12 h21

end Results

/-- The bytes are compared exactly if they are all the same, or all differ and the last pair
differs in the direction of the first. No strings of two or more bytes are ordered. -/
theorem memcmp_compares (str1 str2 : ℕ → UInt8) (n : ℕ) :
    (ComparesBytes str1 str2 n ↔ SameBytes str1 str2 n ∨ DiffersThroughout str1 str2 n) ∧
      (OrdersStrings n ↔ n ≤ 1) :=
  ⟨comparesBytes_iff, ordersStrings_iff⟩

/-- The bytes 0, 0 and 0, 1. -/
theorem not_comparesBytes :
    ¬ ComparesBytes (fun _ => 0) (fun i => if i = 1 then 1 else 0) 2 ∧ ¬ OrdersStrings 2 := by
  refine ⟨fun h => ?_, not_ordersStrings (Nat.le_refl 2)⟩
  exact absurd (h.zero.mp (memcmp_same (Nat.succ_pos 1) rfl) 1 (by decide)) (by decide)

end Cyanea.Uklib

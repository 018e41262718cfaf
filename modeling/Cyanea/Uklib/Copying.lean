/-
# Copying in memory

The model of `memset`, `memcpy`, `memmove` and `strncpy` in `uklib/string.c`. Each of them
goes through memory a byte at a time, with a count of type `size_t` that the test of its
loop takes down by one.
-/

import Cyanea.Text
import Mathlib.Algebra.Group.Nat.Defs
import Mathlib.Data.Int.Notation
import Mathlib.Data.List.GetD
import Mathlib.Logic.Function.Basic

namespace Cyanea.Uklib

/-- What the decrement of a `size_t` makes of zero. -/
def SIZE_MAX : ℕ := 2 ^ 64 - 1

/-- Memory, and the addresses that have been written so far. -/
structure Store where
  mem : ℕ → UInt8
  log : List ℕ

namespace Store

variable (m : Store)

/-- `*p = ch`. -/
def write (p : ℕ) (ch : UInt8) : Store := ⟨Function.update m.mem p ch, p :: m.log⟩

theorem write_self (p : ℕ) (ch : UInt8) : (m.write p ch).mem p = ch :=
  Function.update_self ..

theorem write_of_ne {p a : ℕ} (ch : UInt8) (ha : a ≠ p) : (m.write p ch).mem a = m.mem a :=
  Function.update_of_ne ha ..

theorem mem_log_write {p a : ℕ} {ch : UInt8} : a ∈ (m.write p ch).log ↔ a = p ∨ a ∈ m.log :=
  List.mem_cons

end Store

/-! ## The code -/

def memset (str : ℕ) (c : ℤ) : (n : ℕ) → Store → Store
  | 0, m => m
  | n + 1, m => memset (str + 1) c n (m.write str (UInt8.ofInt c))

def memcpy (dest src : ℕ) : (n : ℕ) → Store → Store
  | 0, m => m
  | n + 1, m => memcpy (dest + 1) (src + 1) n (m.write dest (m.mem src))

/-- The loop of `memmove`, which starts with the last byte. -/
def memmoveLoop (d s : ℕ) : (n : ℕ) → Store → Store
  | 0, m => m
  | n + 1, m => memmoveLoop d s n (m.write (d + n) (m.mem (s + n)))

def memmove (dest src n : ℕ) (m : Store) : Store :=
  if dest ≤ src ∨ dest - src ≥ n then memcpy dest src n m else memmoveLoop dest src n m

/-- The loop of `strncpy`: memory, `q` and `n` as it leaves them. -/
def strncpyLoop (q p : ℕ) : (n : ℕ) → Store → Store × ℕ × ℕ
  | 0, m => (m, q, SIZE_MAX)
  | n + 1, m =>
      let ch := m.mem p
      let m := m.write q ch
      if ch = 0 then (m, q + 1, n) else strncpyLoop (q + 1) (p + 1) n m

def strncpy (dest src n : ℕ) (m : Store) : Store :=
  let (m, q, n) := strncpyLoop dest src n m
  memset q 0 n m

/-! ## What is asked for -/

/-- A string lies at the address, with its terminator. -/
structure HoldsString (mem : ℕ → UInt8) (p : ℕ) (chars : List UInt8) : Prop where
  bytes : ∀ i < chars.length, mem (p + i) = chars.getD i 0
  terminator : mem (p + chars.length) = 0

/-- The field has been filled with the string and padded with zeros, and nothing but the
field has been written. -/
structure FillsField (mem : ℕ → UInt8) (dest n : ℕ) (src : CString) (m : Store) : Prop where
  written : ∀ a, a ∈ m.log ↔ dest ≤ a ∧ a < dest + n
  bytes : ∀ i < min src.chars.length n, m.mem (dest + i) = src.chars.getD i 0
  padding : ∀ i < n, min src.chars.length n ≤ i → m.mem (dest + i) = 0
  frame : ∀ a, a < dest ∨ dest + n ≤ a → m.mem a = mem a

/-- The field starts inside of the string, behind its first character. -/
def Overlaps (dest src : ℕ) (chars : List UInt8) : Prop :=
  src < dest ∧ dest ≤ src + chars.length

/-! ## Setting and copying -/

section Loops

variable {m : Store} {dest src n a : ℕ}

theorem memset_mem (c : ℤ) : (memset dest c n m).mem a =
    if dest ≤ a ∧ a < dest + n then UInt8.ofInt c else m.mem a := by
  induction n generalizing dest m with
  | zero => rw [memset, if_neg (by omega)]
  | succ n ih =>
      rw [memset, ih]
      by_cases ha : a = dest
      · rw [if_neg (by omega), if_pos (by omega), ha, Store.write_self]
      · rw [Store.write_of_ne m _ ha]
        congr 1
        exact propext (by omega)

theorem mem_log_memset (c : ℤ) :
    a ∈ (memset dest c n m).log ↔ (dest ≤ a ∧ a < dest + n) ∨ a ∈ m.log := by
  induction n generalizing dest m with
  | zero => rw [memset, or_iff_right (by omega)]
  | succ n ih =>
      rw [memset, ih, Store.mem_log_write, ← or_assoc]
      exact or_congr_left (by omega)

theorem mem_log_memcpy :
    a ∈ (memcpy dest src n m).log ↔ (dest ≤ a ∧ a < dest + n) ∨ a ∈ m.log := by
  induction n generalizing dest src m with
  | zero => rw [memcpy, or_iff_right (by omega)]
  | succ n ih =>
      rw [memcpy, ih, Store.mem_log_write, ← or_assoc]
      exact or_congr_left (by omega)

/-- Upwards, the bytes that are still to be read lie above those that have been written, or
all of them below. -/
theorem memcpy_mem (h : dest ≤ src ∨ src + n ≤ dest) : (memcpy dest src n m).mem a =
    if dest ≤ a ∧ a < dest + n then m.mem (src + (a - dest)) else m.mem a := by
  induction n generalizing dest src m with
  | zero => rw [memcpy, if_neg (by omega)]
  | succ n ih =>
      rw [memcpy, ih (by omega)]
      by_cases ha : a = dest
      · rw [if_neg (by omega), if_pos (by omega), ha, Store.write_self, Nat.sub_self,
          Nat.add_zero]
      · by_cases hin : dest + 1 ≤ a ∧ a < dest + 1 + n
        · have hread : src + 1 + (a - (dest + 1)) = src + (a - dest) := by omega
          rw [if_pos hin, if_pos (by omega), hread, Store.write_of_ne m _ (by omega)]
        · rw [if_neg hin, if_neg (by omega), Store.write_of_ne m _ ha]

/-- Downwards, they lie below those that have been written. -/
theorem memmoveLoop_mem (h : src ≤ dest) : (memmoveLoop dest src n m).mem a =
    if dest ≤ a ∧ a < dest + n then m.mem (src + (a - dest)) else m.mem a := by
  induction n generalizing m with
  | zero => rw [memmoveLoop, if_neg (by omega)]
  | succ n ih =>
      rw [memmoveLoop, ih]
      by_cases ha : a = dest + n
      · rw [if_neg (by omega), if_pos (by omega), ha, Store.write_self, Nat.add_sub_cancel_left]
      · by_cases hin : dest ≤ a ∧ a < dest + n
        · rw [if_pos hin, if_pos (by omega), Store.write_of_ne m _ (by omega)]
        · rw [if_neg hin, if_neg (by omega), Store.write_of_ne m _ ha]

theorem memmove_mem : (memmove dest src n m).mem a =
    if dest ≤ a ∧ a < dest + n then m.mem (src + (a - dest)) else m.mem a := by
  rw [memmove]
  by_cases h : dest ≤ src ∨ dest - src ≥ n
  · rw [if_pos h, memcpy_mem (by omega)]
  · rw [if_neg h, memmoveLoop_mem (by omega)]

end Loops

/-- The bytes arrive as they were, wherever the two ranges lie, and no other changes. -/
theorem memmove_moves (m : Store) (dest src n : ℕ) :
    (∀ i < n, (memmove dest src n m).mem (dest + i) = m.mem (src + i)) ∧
      ∀ a, a < dest ∨ dest + n ≤ a → (memmove dest src n m).mem a = m.mem a := by
  constructor
  · intro i hi
    rw [memmove_mem, if_pos (by omega), Nat.add_sub_cancel_left]
  · intro a ha
    rw [memmove_mem, if_neg (by omega)]

/-! ## Copying a string -/

section Strings

variable {m : Store} {dest src n : ℕ} {chars : List UInt8}

theorem HoldsString.write {c : UInt8} (h : HoldsString m.mem src (c :: chars)) {ch : UInt8}
    (hdest : ¬ Overlaps dest src (c :: chars)) :
    HoldsString (m.write dest ch).mem (src + 1) chars := by
  rw [Overlaps, List.length_cons] at hdest
  constructor
  · intro i hi
    have hlt : i + 1 < (c :: chars).length := by simpa using hi
    have hread : src + 1 + i = src + (i + 1) := by omega
    rw [Store.write_of_ne m _ (by omega), hread, h.bytes (i + 1) hlt, List.getD_cons_succ]
  · have hend := h.terminator
    rw [List.length_cons] at hend
    have hread : src + 1 + chars.length = src + (chars.length + 1) := by omega
    rw [Store.write_of_ne m _ (by omega), hread, hend]

/-- A string that fits, and is not overwritten while it is read, is copied with its
terminator. -/
theorem strncpyLoop_string (hnul : 0 ∉ chars) (h : HoldsString m.mem src chars)
    (hfits : chars.length < n) (hdest : ¬ Overlaps dest src chars) :
    strncpyLoop dest src n m = (memcpy dest src (chars.length + 1) m,
      dest + (chars.length + 1), n - (chars.length + 1)) := by
  induction chars generalizing m dest src n with
  | nil =>
      obtain ⟨n, rfl⟩ := Nat.exists_eq_succ_of_ne_zero (Nat.ne_of_gt hfits)
      rw [strncpyLoop]
      exact if_pos h.terminator
  | cons c chars ih =>
      obtain ⟨n, rfl⟩ := Nat.exists_eq_succ_of_ne_zero (Nat.ne_of_gt (Nat.zero_lt_of_lt hfits))
      have hread : m.mem src = c := h.bytes 0 (Nat.succ_pos _)
      have hc : c ≠ 0 := fun hc => hnul (hc ▸ List.mem_cons_self)
      have hapart : ¬ Overlaps (dest + 1) (src + 1) chars := by
        rw [Overlaps, List.length_cons] at hdest
        rw [Overlaps]
        omega
      have hrest := ih (m := m.write dest (m.mem src)) (n := n)
        (fun hmem => hnul (List.mem_cons_of_mem c hmem)) (h.write hdest)
        (Nat.lt_of_succ_lt_succ hfits) hapart
      have hq : dest + 1 + (chars.length + 1) = dest + (chars.length + 1 + 1) := by omega
      have hn : n - (chars.length + 1) = n + 1 - (chars.length + 1 + 1) := by omega
      rw [strncpyLoop, if_neg (hread ▸ hc), hrest, List.length_cons, hq, hn]
      rfl

/-- What the loop has still to read is not zero, or will be overwritten with what is not. -/
def NonzeroAhead (m : Store) (q p n : ℕ) : Prop :=
  ∀ a, p ≤ a → a < p + n → q ≤ p ∨ a < q → m.mem a ≠ 0

/-- Then the count ends the loop, and the decrement wraps. -/
theorem strncpyLoop_wraps (h : NonzeroAhead m dest src n) :
    ∃ m', strncpyLoop dest src n m = (m', dest + n, SIZE_MAX) := by
  induction n generalizing m dest src with
  | zero => exact ⟨m, rfl⟩
  | succ n ih =>
      have hread : m.mem src ≠ 0 := h src (Nat.le_refl _) (by omega) (by omega)
      have hahead : NonzeroAhead (m.write dest (m.mem src)) (dest + 1) (src + 1) n := by
        intro a hlow hhigh hcase
        by_cases ha : a = dest
        · rw [ha, Store.write_self]
          exact hread
        · rw [Store.write_of_ne m _ ha]
          exact h a (by omega) (by omega) (by omega)
      obtain ⟨m', hrest⟩ := ih hahead
      refine ⟨m', ?_⟩
      rw [strncpyLoop, if_neg hread, hrest, Nat.add_right_comm, Nat.add_assoc]

theorem HoldsString.nonzeroAhead (hnul : 0 ∉ chars) (h : HoldsString m.mem src chars)
    (hbad : n ≤ chars.length ∨ Overlaps dest src chars) : NonzeroAhead m dest src n := by
  intro a hlow hhigh hcase
  rw [Overlaps] at hbad
  have hlt : a - src < chars.length := by omega
  have hread := h.bytes (a - src) hlt
  rw [Nat.add_sub_cancel' hlow, List.getD_eq_getElem _ 0 hlt] at hread
  exact fun hzero => hnul (hzero ▸ hread ▸ List.getElem_mem hlt)

end Strings

/-- Behind a field that the string fills up, memory is overwritten. -/
theorem not_fillsField {mem : ℕ → UInt8} {dest src n : ℕ} {s : CString}
    (h : HoldsString mem src s.chars) (hbad : n ≤ s.chars.length ∨ Overlaps dest src s.chars) :
    ¬ FillsField mem dest n s (strncpy dest src n ⟨mem, []⟩) := by
  intro hfills
  obtain ⟨m', hloop⟩ := strncpyLoop_wraps (m := ⟨mem, []⟩) (h.nonzeroAhead s.noNul hbad)
  have hwritten := (hfills.written (dest + n)).mp (by
    rw [strncpy, hloop]
    exact (mem_log_memset 0).mpr (Or.inl ⟨Nat.le_refl _, Nat.lt_add_of_pos_right (by decide)⟩))
  exact absurd hwritten.2 (Nat.lt_irrefl _)

/-- The field is filled, and nothing else is written, exactly if the string is shorter than
the field and does not lie across its beginning. -/
theorem strncpy_fillsField_iff {mem : ℕ → UInt8} {dest src n : ℕ} {s : CString}
    (h : HoldsString mem src s.chars) :
    FillsField mem dest n s (strncpy dest src n ⟨mem, []⟩) ↔
      s.chars.length < n ∧ ¬ Overlaps dest src s.chars := by
  constructor
  · intro hfills
    constructor
    · by_contra hlong
      exact not_fillsField h (Or.inl (Nat.not_lt.mp hlong)) hfills
    · exact fun hover => not_fillsField h (Or.inr hover) hfills
  · rintro ⟨hfits, hdest⟩
    have hloop := strncpyLoop_string (m := ⟨mem, []⟩) s.noNul h hfits hdest
    have hapart : dest ≤ src ∨ src + (s.chars.length + 1) ≤ dest := by
      rw [Overlaps] at hdest
      omega
    have hmem : ∀ a, (strncpy dest src n ⟨mem, []⟩).mem a =
        if dest + (s.chars.length + 1) ≤ a ∧
          a < dest + (s.chars.length + 1) + (n - (s.chars.length + 1)) then 0
        else if dest ≤ a ∧ a < dest + (s.chars.length + 1) then mem (src + (a - dest))
        else mem a := by
      intro a
      rw [strncpy, hloop]
      dsimp only
      rw [memset_mem, memcpy_mem hapart]
      rfl
    refine ⟨fun a => ?_, fun i hi => ?_, fun i hi hlow => ?_, fun a ha => ?_⟩
    · rw [strncpy, hloop]
      dsimp only
      rw [mem_log_memset, mem_log_memcpy, or_iff_left List.not_mem_nil]
      omega
    · rw [hmem, if_neg (by omega), if_pos (by omega), Nat.add_sub_cancel_left]
      exact h.bytes i (by omega)
    · rw [hmem]
      by_cases hend : i = s.chars.length
      · rw [if_neg (by omega), if_pos (by omega), Nat.add_sub_cancel_left, hend]
        exact h.terminator
      · rw [if_pos (by omega)]
    · rw [hmem, if_neg (by omega), if_neg (by omega)]

/-- `ab` at the address zero. -/
def ab : CString := ⟨[0x61, 0x62], by decide⟩

def abAtZero (a : ℕ) : UInt8 := ab.chars.getD a 0

theorem holdsString_ab : HoldsString abAtZero 0 ab.chars := by
  refine ⟨fun i _ => ?_, rfl⟩
  rw [Nat.zero_add]
  rfl

theorem strncpy_fillsField_iff_ab :
    FillsField abAtZero 16 3 ab (strncpy 16 0 3 ⟨abAtZero, []⟩) ↔
      ab.chars.length < 3 ∧ ¬ Overlaps 16 0 ab.chars :=
  strncpy_fillsField_iff holdsString_ab

theorem not_fillsField_ab : ¬ FillsField abAtZero 16 2 ab (strncpy 16 0 2 ⟨abAtZero, []⟩) :=
  not_fillsField holdsString_ab (Or.inl (by decide))

end Cyanea.Uklib

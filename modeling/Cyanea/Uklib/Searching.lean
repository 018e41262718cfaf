/-
# Searching a string

The model of `strstr` and `strnstr` in `uklib/string.c`, with `strlen` and `strncmp`. A
pointer is given by the bytes from there on to the end of its object, and a read at the end
is undefined. The needle is compared at one place after the other, as long as what is left
of the haystack is not shorter.
-/

import Cyanea.Text
import Cyanea.Uklib.Comparing
import Mathlib.Data.List.Basic

namespace Cyanea.Uklib

/-- The bytes from where it points to the end of the object. -/
abbrev Pointer := List UInt8

/-- A byte behind the end of an object was read. -/
inductive Undefined
  | pastEnd
  deriving DecidableEq, Repr

/-! ## The code -/

/-- `*p`. -/
def load : Pointer → Except Undefined UInt8
  | [] => .error .pastEnd
  | ch :: _ => .ok ch

/-- The loop of `strlen`, with the distance from `str` counted. -/
def strlen : Pointer → Except Undefined ℕ
  | [] => .error .pastEnd
  | ch :: s => do
      if ch = 0 then
        return 0
      else
        return (← strlen s) + 1

/-- The loop of `strncmp`. -/
def strncmpLoop : (n : ℕ) → (s1 s2 : Pointer) → (d : ℤ) → Except Undefined ℤ
  | 0, _, _, d => return d
  | n + 1, s1, s2, _ => do
      let ch ← load s1
      let d := byteDifference ch (← load s2)
      if d ≠ 0 ∨ ch = 0 then
        return d
      else
        strncmpLoop n s1.tail s2.tail d

def strncmp (str1 str2 : Pointer) (n : ℕ) : Except Undefined ℤ := strncmpLoop n str1 str2 0

/-- The loop of `strnstr`. It is not entered with a length `n2` of zero, so that none is left
of `n` before it is below `n2`. -/
def strnstrLoop (str2 : Pointer) (n2 : ℕ) : (n : ℕ) → (str1 : Pointer) →
    Except Undefined (Option Pointer)
  | 0, _ => return none
  | n + 1, str1 => do
      if n2 ≤ n + 1 then
        if (← strncmp str1 str2 n2) = 0 then
          return some str1
        else
          strnstrLoop str2 n2 n str1.tail
      else
        return none

/-- `strnstr`, where `none` is `NULL`. -/
def strnstr (str1 str2 : Pointer) (n : ℕ) : Except Undefined (Option Pointer) := do
  let n2 ← strlen str2
  if n2 = 0 then
    return some str1
  else
    strnstrLoop str2 n2 n str1

def strstr (str1 str2 : Pointer) : Except Undefined (Option Pointer) := do
  strnstr str1 str2 (← strlen str1)

/-! ## What is asked for -/

/-- A pointer to a string, with the terminator and whatever is behind it in the object. -/
def pointerTo (str : CString) (behind : List UInt8) : Pointer := str.chars ++ 0 :: behind

/-- The string `s` occurs in `h` at `i`. -/
def OccursAt (s h : List UInt8) (i : ℕ) : Prop := i ≤ h.length ∧ s <+: h.drop i

/-- The first occurrence of `s` in the string that `str` points to, or `NULL`. -/
structure FindsFirst (s h : List UInt8) (str : Pointer) (found : Option Pointer) : Prop where
  empty : s = [] → found = some str
  first : ∀ i, OccursAt s h i → (∀ j < i, ¬ OccursAt s h j) → found = some (str.drop i)
  null : found = none ↔ ∀ i, ¬ OccursAt s h i

/-! ## Occurrences -/

section Occurrences

variable {s h : List UInt8} {c : UInt8} {i : ℕ}

theorem occursAt_zero : OccursAt s h 0 ↔ s <+: h := and_iff_right (Nat.zero_le _)

theorem occursAt_succ : OccursAt s (c :: h) (i + 1) ↔ OccursAt s h i := by
  rw [OccursAt, OccursAt, List.length_cons, Nat.succ_le_succ_iff, List.drop_succ_cons]

theorem OccursAt.length_le (hs : OccursAt s h i) : s.length ≤ h.length :=
  Nat.le_trans hs.2.length_le (List.drop_sublist i h).length_le

end Occurrences

/-- The outcome of a search in `h`, with the pointer `str` to its beginning. -/
def Outcome (s h : List UInt8) (str : Pointer) : Option Pointer → Prop
  | some p => ∃ i, p = str.drop i ∧ OccursAt s h i ∧ ∀ j < i, ¬ OccursAt s h j
  | none => ∀ i, ¬ OccursAt s h i

section Outcomes

variable {s h : List UInt8} {c : UInt8} {str : Pointer} {found : Option Pointer}

theorem outcome_here (hs : s <+: h) : Outcome s h str (some str) :=
  ⟨0, rfl, occursAt_zero.mpr hs, fun j hj => absurd hj (Nat.not_lt_zero j)⟩

/-- The search goes on at the next place. -/
theorem Outcome.next (hs : ¬ s <+: c :: h) (hfound : Outcome s h str found) :
    Outcome s (c :: h) (c :: str) found := by
  cases found with
  | none =>
      intro i
      cases i with
      | zero => exact fun hi => hs (occursAt_zero.mp hi)
      | succ i => exact fun hi => hfound i (occursAt_succ.mp hi)
  | some p =>
      obtain ⟨i, hp, hi, hfirst⟩ := hfound
      refine ⟨i + 1, hp, occursAt_succ.mpr hi, fun j hj => ?_⟩
      cases j with
      | zero => exact fun hj' => hs (occursAt_zero.mp hj')
      | succ j => exact fun hj' => hfirst j (Nat.lt_of_succ_lt_succ hj) (occursAt_succ.mp hj')

theorem Outcome.findsFirst (hfound : Outcome s h str found) : FindsFirst s h str found := by
  cases found with
  | none =>
      refine ⟨fun hs => ?_, fun i hi _ => absurd hi (hfound i), iff_of_true rfl hfound⟩
      exact absurd (occursAt_zero.mpr (hs ▸ List.nil_prefix)) (hfound 0)
  | some p =>
      obtain ⟨i, rfl, hi, hfirst⟩ := hfound
      refine ⟨fun hs => ?_, fun j hj hfirst' => ?_, ?_⟩
      · have hzero : i = 0 := by
          by_contra hne
          exact hfirst 0 (Nat.pos_of_ne_zero hne) (occursAt_zero.mpr (hs ▸ List.nil_prefix))
        rw [hzero]
        rfl
      · -- neither of two first occurrences is in front of the other
        have hij : ¬ j < i := fun hlt => hfirst j hlt hj
        have hji : ¬ i < j := fun hlt => hfirst' i hlt hi
        rw [Nat.le_antisymm (Nat.not_lt.mp hij) (Nat.not_lt.mp hji)]
      · exact iff_of_false (Option.some_ne_none _) fun hno => hno i hi

end Outcomes

/-! ## The functions -/

section Functions

variable {s h : List UInt8}

theorem strlen_eq (hs : 0 ∉ s) (behind : List UInt8) : strlen (s ++ 0 :: behind) = .ok s.length := by
  induction s with
  | nil => rfl
  | cons c s ih =>
      rw [List.mem_cons, not_or] at hs
      have hc : c ≠ 0 := Ne.symm hs.1
      rw [List.cons_append, strlen, ih hs.2, if_neg hc]
      rfl

/-- As many bytes as `s` has are the same exactly if the other string begins with `s`. -/
theorem strncmpLoop_eq (hs : 0 ∉ s) (hh : 0 ∉ h) (behind behind' : List UInt8) :
    ∃ d, strncmpLoop s.length (h ++ 0 :: behind) (s ++ 0 :: behind') 0 = .ok d ∧
      (d = 0 ↔ s <+: h) := by
  induction s generalizing h with
  | nil => exact ⟨0, rfl, iff_of_true rfl List.nil_prefix⟩
  | cons c s ih =>
      rw [List.mem_cons, not_or] at hs
      cases h with
      | nil =>
          have hd : byteDifference 0 c ≠ 0 := byteDifference_eq_zero.not.mpr hs.1
          exact ⟨byteDifference 0 c, if_pos (Or.inl hd), iff_of_false hd (by simp)⟩
      | cons b h =>
          rw [List.mem_cons, not_or] at hh
          by_cases heq : b = c
          · subst heq
            obtain ⟨d, hrun, hd⟩ := ih hs.2 hh.2
            have hzero : byteDifference b b = 0 := byteDifference_eq_zero.mpr rfl
            have hgo : ¬ (byteDifference b b ≠ 0 ∨ b = 0) := by
              rintro (hne | rfl)
              · exact hne hzero
              · exact hs.1 rfl
            refine ⟨d, (if_neg hgo).trans ?_, hd.trans (List.prefix_cons_inj b).symm⟩
            rw [hzero]
            exact hrun
          · have hd : byteDifference b c ≠ 0 := byteDifference_eq_zero.not.mpr heq
            refine ⟨byteDifference b c, if_pos (Or.inl hd), iff_of_false hd fun hpre => ?_⟩
            exact heq (List.cons_prefix_cons.mp hpre).1.symm

/-- The loop comes to every place where there is room for `s`. -/
theorem strnstrLoop_outcome (hs : 0 ∉ s) (hne : s ≠ []) (hh : 0 ∉ h)
    (behind behind' : List UInt8) :
    ∃ found, strnstrLoop (s ++ 0 :: behind') s.length h.length (h ++ 0 :: behind) = .ok found ∧
      Outcome s h (h ++ 0 :: behind) found := by
  induction h with
  | nil =>
      refine ⟨none, rfl, fun i hi => hne ?_⟩
      exact List.length_eq_zero_iff.mp (Nat.le_zero.mp hi.length_le)
  | cons c h ih =>
      rw [List.length_cons, strnstrLoop]
      by_cases hroom : s.length ≤ h.length + 1
      · obtain ⟨d, hrun, hd⟩ := strncmpLoop_eq hs hh behind behind'
        rw [if_pos hroom, strncmp, hrun]
        by_cases hzero : d = 0
        · exact ⟨some (c :: h ++ 0 :: behind), if_pos hzero, outcome_here (hd.mp hzero)⟩
        · obtain ⟨found, hrest, hfound⟩ := ih fun hmem => hh (List.mem_cons_of_mem c hmem)
          exact ⟨found, (if_neg hzero).trans hrest, hfound.next (hd.not.mp hzero)⟩
      · exact ⟨none, if_neg hroom, fun i hi => hroom hi.length_le⟩

end Functions

/-- The first occurrence is returned, without a byte behind the terminators read: there may be
none in the objects. -/
theorem strstr_findsFirst (h s : CString) (behind behind' : List UInt8) :
    ∃ found, strstr (pointerTo h behind) (pointerTo s behind') = .ok found ∧
      FindsFirst s.chars h.chars (pointerTo h behind) found := by
  rw [strstr, pointerTo, pointerTo, strlen_eq h.noNul]
  show ∃ found, strnstr _ _ h.chars.length = .ok found ∧ _
  rw [strnstr, strlen_eq s.noNul]
  by_cases hs : s.chars = []
  · refine ⟨some (h.chars ++ 0 :: behind), ?_, ?_⟩
    · rw [hs]
      rfl
    · rw [hs]
      exact (outcome_here List.nil_prefix).findsFirst
  · obtain ⟨found, hrun, hfound⟩ := strnstrLoop_outcome s.noNul hs h.noNul behind behind'
    have hlen : s.chars.length ≠ 0 := fun hzero => hs (List.length_eq_zero_iff.mp hzero)
    exact ⟨found, (if_neg hlen).trans hrun, hfound.findsFirst⟩

/-- `aab` at the last place of `aaaab`, which it almost occurs at twice before. -/
example : strstr [97, 97, 97, 97, 98, 0] [97, 97, 98, 0] = .ok (some [97, 97, 98, 0]) := rfl

end Cyanea.Uklib

/-
# The text of a number

What `format_int` emits, put together from its parts: the sign, the prefix, enough digits,
and the padding that the width asks for. The length that the code computes in advance is the
length of these parts.
-/

import Mathlib.Data.Nat.Digits.Defs
import Cyanea.IoBuffer.RoundTrip

namespace Cyanea.IoBuffer

/-! ## The parts -/

/-- The sign of a number, as the flags ask for it. -/
def fieldSign (n : ℤ) (flags : ℕ) : List UInt8 :=
  if n < 0 then [code '-']
  else if Has flags FL_PLUS then [code '+']
  else if Has flags FL_SPACE then [code ' ']
  else []

/-- The digits of a number, of which there is at least one. -/
def numeral (flags base m : ℕ) : List UInt8 :=
  if m = 0 then [digits flags 0] else (Nat.digits base m).reverse.map (digits flags)

/-- The digits with zeros in front of them, at least `precision` characters. -/
def fieldDigits (n : ℤ) (flags base : ℕ) (precision : ℤ) : List UInt8 :=
  List.replicate (precision.toNat - (numeral flags base n.natAbs).length) (code '0') ++
    numeral flags base n.natAbs

/-- The field without padding. -/
def fieldBody (n : ℤ) (flags base : ℕ) (precision : ℤ) : List UInt8 :=
  fieldSign n flags ++ prefixText flags base ++ fieldDigits n flags base precision

/-- What is missing to the width. -/
def fieldPadding (n : ℤ) (flags base : ℕ) (width precision : ℤ) (c : UInt8) : List UInt8 :=
  List.replicate (width - (fieldBody n flags base precision).length).toNat c

/-- The field: padded with blanks on the right with `-`, else between the prefix and the
digits with `0`, else with blanks on the left. -/
def fieldText (n : ℤ) (flags base : ℕ) (width precision : ℤ) : List UInt8 :=
  let padding := fieldPadding n flags base width precision
  if Has flags FL_MINUS then fieldBody n flags base precision ++ padding (code ' ')
  else if Has flags FL_ZERO then
    fieldSign n flags ++ prefixText flags base ++ padding (code '0') ++
      fieldDigits n flags base precision
  else padding (code ' ') ++ fieldBody n flags base precision

/-- The number that 64 bits stand for. -/
def numberOf (flags value : ℕ) : ℤ :=
  if Has flags FL_SIGNED ∧ 2 ^ 63 ≤ value then (value : ℤ) - 2 ^ 64 else value

/-! ## Digits -/

section Digits

variable {flags base k v m : ℕ}

theorem digits_zero_char (flags : ℕ) : digits flags 0 = code '0' := rfl

theorem numeral_of_lt (h : m < base) : numeral flags base m = [digits flags m] := by
  rw [numeral]
  by_cases hm : m = 0
  · rw [if_pos hm, hm]
  · rw [if_neg hm, Nat.digits_of_lt base m hm h]
    rfl

theorem numeral_of_le (hbase : 1 < base) (h : base ≤ m) :
    numeral flags base m = numeral flags base (m / base) ++ [digits flags (m % base)] := by
  have hm : 0 < m := Nat.zero_lt_of_lt (Nat.lt_of_lt_of_le hbase h)
  have hdiv : 0 < m / base := Nat.div_pos h (Nat.zero_lt_of_lt hbase)
  rw [numeral, if_neg hm.ne', numeral, if_neg hdiv.ne', Nat.digits_def' hbase hm,
    List.reverse_cons, List.map_append]
  rfl

theorem length_numeral (hbase : 1 < base) (m : ℕ) :
    (numeral flags base m).length = countDigits base m := by
  induction m using Nat.strongRecOn with
  | ind m ih =>
      rw [countDigits]
      by_cases hlt : m < base
      · rw [numeral_of_lt hlt, dif_neg (by rw [Nat.div_eq_of_lt hlt]; tauto)]
        rfl
      · have hle := Nat.not_lt.mp hlt
        have hdiv : 0 < m / base := Nat.div_pos hle (Nat.zero_lt_of_lt hbase)
        have hsmall : m / base < m := Nat.div_lt_self (by omega) hbase
        rw [numeral_of_le hbase hle, dif_pos ⟨hbase, hdiv.ne'⟩, List.length_append, ih _ hsmall]
        rfl

theorem putDigits_zero (flags base k : ℕ) (t : List UInt8) :
    putDigits flags base k 0 t = List.replicate k (code '0') ++ t := by
  induction k generalizing t with
  | zero => rfl
  | succ k ih =>
      rw [putDigits, Nat.zero_div, Nat.zero_mod, digits_zero_char, ih, List.replicate_succ',
        List.append_assoc]
      rfl

/-- The loop writes the numeral, and fills up with zeros. -/
theorem putDigits_numeral (hbase : 1 < base) (hk : countDigits base v ≤ k) (t : List UInt8) :
    putDigits flags base k v t =
      List.replicate (k - (numeral flags base v).length) (code '0') ++ numeral flags base v ++ t := by
  induction k generalizing v t with
  | zero => exact absurd (countDigits_pos base v) (by omega)
  | succ k ih =>
      rw [putDigits]
      by_cases hlt : v < base
      · rw [Nat.div_eq_of_lt hlt, Nat.mod_eq_of_lt hlt, putDigits_zero, numeral_of_lt hlt,
          List.append_assoc]
        rfl
      · have hle := Nat.not_lt.mp hlt
        have hdiv : 0 < v / base := Nat.div_pos hle (Nat.zero_lt_of_lt hbase)
        rw [countDigits, dif_pos ⟨hbase, hdiv.ne'⟩] at hk
        rw [ih (Nat.le_of_succ_le_succ hk), numeral_of_le hbase hle, List.length_append]
        simp only [List.append_assoc, List.length_singleton, Nat.add_sub_add_right]
        rfl

end Digits

/-! ## The field -/

section Field

variable {value flags base : ℕ} {width precision : ℤ}

theorem flatten_replicate_singleton (k : ℕ) (c : UInt8) :
    (List.replicate k [c]).flatten = List.replicate k c := by
  induction k with
  | zero => rfl
  | succ k ih => rw [List.replicate_succ, List.flatten_cons, ih, List.replicate_succ]; rfl

theorem flatten_putPadding (condition : Prop) [Decidable condition] (c : UInt8)
    (width nchar : ℤ) : (putPadding condition c width nchar).flatten =
      if condition then List.replicate (width - nchar).toNat c else [] := by
  rw [putPadding]
  by_cases hcondition : condition
  · rw [if_pos hcondition]
    by_cases hwidth : nchar < width
    · rw [if_pos ⟨hcondition, hwidth⟩, flatten_replicate_singleton]
    · rw [if_neg (fun h => hwidth h.2), Int.toNat_of_nonpos (by omega)]
      rfl
  · rw [if_neg hcondition, if_neg (fun h => hcondition h.1)]
    rfl

/-- The code's test of the sign, and its magnitude. -/
theorem numberOf_spec (flags : ℕ) (hvalue : value < 2 ^ 64) :
    (numberOf flags value < 0 ↔ Has flags FL_SIGNED ∧ 2 ^ 63 ≤ value) ∧
      (numberOf flags value).natAbs =
        if Has flags FL_SIGNED ∧ 2 ^ 63 ≤ value then sub64 0 value else value := by
  rw [numberOf, sub64]
  by_cases hminus : Has flags FL_SIGNED ∧ 2 ^ 63 ≤ value
  · rw [if_pos hminus, if_pos hminus]
    have hle := hminus.2
    exact ⟨iff_of_true (by omega) hminus, by omega⟩
  · rw [if_neg hminus, if_neg hminus]
    exact ⟨iff_of_false (by omega) hminus, Int.natAbs_natCast value⟩

theorem length_fieldSign (n : ℤ) (flags : ℕ) : ((fieldSign n flags).length : ℤ) =
    if n < 0 ∨ Has flags FL_PLUS ∨ Has flags FL_SPACE then 1 else 0 := by
  rw [fieldSign]
  split_ifs <;> tauto

theorem length_prefixText (flags base : ℕ) : ((prefixText flags base).length : ℤ) =
    if Has flags FL_HASH then if base = 16 then 2 else if base = 8 then 1 else 0 else 0 := by
  rw [prefixText]
  split_ifs <;> rfl

theorem length_fieldDigits (hbase : 1 < base) (n : ℤ) (flags : ℕ) (precision : ℤ) :
    ((fieldDigits n flags base precision).length : ℤ) =
      max (countDigits base n.natAbs : ℤ) precision := by
  rw [fieldDigits, List.length_append, List.length_replicate, length_numeral hbase]
  omega

/-- The length that is computed in advance. -/
theorem length_fieldBody (hbase : 1 < base) (n : ℤ) (flags : ℕ) (precision : ℤ) :
    ((fieldBody n flags base precision).length : ℤ) =
      max (countDigits base n.natAbs : ℤ) precision +
        (if n < 0 ∨ Has flags FL_PLUS ∨ Has flags FL_SPACE then 1 else 0) +
        (if Has flags FL_HASH then if base = 16 then 2 else if base = 8 then 1 else 0 else 0) := by
  rw [fieldBody, List.length_append, List.length_append, Nat.cast_add, Nat.cast_add,
    length_fieldSign, length_prefixText, length_fieldDigits hbase]
  ring

theorem putDigits_fieldDigits (hbase : 1 < base) (n : ℤ) (flags : ℕ) (precision : ℤ) :
    putDigits flags base (max (countDigits base n.natAbs : ℤ) precision).toNat n.natAbs [] =
      fieldDigits n flags base precision := by
  rw [putDigits_numeral hbase (by omega), List.append_nil, fieldDigits, length_numeral hbase]
  congr 2
  omega

/-- The field is as wide as the width says, unless its parts are longer. -/
theorem length_fieldText (n : ℤ) (flags base : ℕ) (width precision : ℤ) :
    ((fieldText n flags base width precision).length : ℤ) =
      max width (fieldBody n flags base precision).length := by
  have hpadding : ∀ c, ((fieldPadding n flags base width precision c).length : ℤ) =
      max width (fieldBody n flags base precision).length -
        (fieldBody n flags base precision).length := by
    intro c
    rw [fieldPadding, List.length_replicate]
    omega
  rw [fieldText]
  by_cases hminus : Has flags FL_MINUS
  · rw [if_pos hminus, List.length_append, Nat.cast_add, hpadding]
    omega
  · rw [if_neg hminus]
    by_cases hzero : Has flags FL_ZERO
    · have hbody : (fieldBody n flags base precision).length = (fieldSign n flags).length +
          (prefixText flags base).length + (fieldDigits n flags base precision).length := by
        rw [fieldBody, List.length_append, List.length_append]
      have hzeros := hpadding (code '0')
      rw [if_pos hzero]
      simp only [List.length_append, Nat.cast_add]
      omega
    · rw [if_neg hzero, List.length_append, Nat.cast_add, hpadding]
      omega

/-! ## Telling the sign -/

theorem mem_numeral {m : ℕ} (hbase : 1 < base) {c : UInt8} (h : c ∈ numeral flags base m) :
    ∃ i < base, c = digits flags i := by
  rw [numeral] at h
  by_cases hm : m = 0
  · rw [if_pos hm] at h
    exact ⟨0, Nat.zero_lt_of_lt hbase, List.mem_singleton.mp h⟩
  · rw [if_neg hm] at h
    obtain ⟨i, hi, rfl⟩ := List.mem_map.mp h
    exact ⟨i, Nat.digits_lt_base hbase (List.mem_reverse.mp hi), rfl⟩

theorem minus_not_mem_fieldDigits (hbase : 1 < base ∧ base ≤ 16) (n : ℤ) (flags : ℕ)
    (precision : ℤ) : code '-' ∉ fieldDigits n flags base precision := by
  rw [fieldDigits, List.mem_append]
  rintro (h | h)
  · exact absurd (List.eq_of_mem_replicate h) (by decide)
  · obtain ⟨i, hi, heq⟩ := mem_numeral hbase.1 h
    exact (digits_ne flags (hi.trans_le hbase.2)).2.2.2.1 heq.symm

theorem minus_not_mem_prefixText (flags base : ℕ) : code '-' ∉ prefixText flags base := by
  rw [prefixText]
  split_ifs <;> decide

theorem minus_mem_fieldSign (n : ℤ) (flags : ℕ) : code '-' ∈ fieldSign n flags ↔ n < 0 := by
  rw [fieldSign]
  by_cases hn : n < 0
  · rw [if_pos hn]
    exact iff_of_true (List.mem_singleton.mpr rfl) hn
  · rw [if_neg hn]
    refine iff_of_false ?_ hn
    split_ifs <;> decide

/-- A minus sign is printed for negative numbers only. -/
theorem minus_mem_fieldText (hbase : 1 < base ∧ base ≤ 16) (n : ℤ) (flags : ℕ)
    (width precision : ℤ) : code '-' ∈ fieldText n flags base width precision ↔ n < 0 := by
  have hdigits := minus_not_mem_fieldDigits hbase n flags precision
  have hprefix := minus_not_mem_prefixText flags base
  have hpadding : ∀ c, c ≠ code '-' →
      code '-' ∉ fieldPadding n flags base width precision c :=
    fun c hc h => hc (List.eq_of_mem_replicate h).symm
  have hblanks := hpadding (code ' ') (by decide)
  have hzeros := hpadding (code '0') (by decide)
  rw [← minus_mem_fieldSign n flags, fieldText]
  split_ifs <;>
    simp only [fieldBody, List.mem_append, hdigits, hprefix, hblanks, hzeros, or_false, false_or]

/-- The digits of 64 bits fit into `t_str`. -/
theorem countDigits_le_64 (hvalue : value < 2 ^ 64) (hbase : 1 < base) :
    countDigits base value ≤ 64 :=
  countDigits_le hbase (by decide) (hvalue.trans_le (Nat.pow_le_pow_left hbase 64))

/-- What `format_int` writes, if `t_str` is long enough. -/
theorem formatInt_eq (hvalue : value < 2 ^ 64) (hbase : 1 < base) :
    (formatInt value flags base width precision).map List.flatten =
      if precision ≤ 64 then some (fieldText (numberOf flags value) flags base width precision)
      else none := by
  obtain ⟨hsign, habs⟩ := numberOf_spec flags hvalue
  have hcount : countDigits base (numberOf flags value).natAbs ≤ 64 := by
    refine countDigits_le_64 ?_ hbase
    rw [habs]
    split
    · exact sub64_lt 0 value
    · exact hvalue
  have hlength := length_fieldBody hbase (numberOf flags value) flags precision
  have hdigits := putDigits_fieldDigits hbase (numberOf flags value) flags precision
  simp only [← hsign] at habs
  simp only [formatInt, ← hsign, ← habs]
  rw [← hlength, hdigits]
  by_cases hprecision : precision ≤ 64
  · rw [if_pos (by omega), if_pos hprecision, Option.map_some]
    congr 1
    simp only [List.flatten_append, flatten_putPadding, List.flatten_cons, List.flatten_nil,
      List.append_nil]
    have hsigns : (if numberOf flags value < 0 then [[code '-']]
        else if Has flags FL_PLUS then [[code '+']]
        else if Has flags FL_SPACE then [[code ' ']] else []).flatten =
        fieldSign (numberOf flags value) flags := by
      rw [fieldSign]
      split_ifs <;> rfl
    have hprefix : (if Has flags FL_HASH then
        if base = 16 then [[code '0'], [if Has flags FL_UPPER then code 'X' else code 'x']]
        else if base = 8 then [[code '0']] else [] else []).flatten = prefixText flags base := by
      rw [prefixText]
      split_ifs <;> rfl
    rw [hsigns, hprefix, fieldText]
    by_cases hminus : Has flags FL_MINUS
    · rw [if_neg (fun h => h.1 hminus), if_neg (fun h => h.1 hminus), if_pos hminus, if_pos hminus]
      simp only [List.nil_append, List.append_nil, fieldBody, fieldPadding]
    · rw [if_neg hminus, if_neg hminus]
      by_cases hzero : Has flags FL_ZERO
      · rw [if_neg (fun h => h.2 hzero), if_pos ⟨hminus, hzero⟩, if_pos hzero]
        simp only [List.nil_append, List.append_nil, fieldPadding]
      · rw [if_pos ⟨hminus, hzero⟩, if_neg (fun h => hzero h.2), if_neg hzero]
        simp only [List.append_nil, fieldBody, fieldPadding, List.append_assoc]
  · rw [if_neg (by omega), if_neg hprecision]
    rfl

end Field

/-- `format_int` emits the field, of exactly the length that the width asks for or its parts
take. -/
theorem formatInt_field {value flags base : ℕ} (hvalue : value < 2 ^ 64)
    (hbase : base = 8 ∨ base = 10 ∨ base = 16) (width : ℤ) {precision : ℤ}
    (hprecision : precision ≤ 64) :
    ∃ strs, formatInt value flags base width precision = some strs ∧
      strs.flatten = fieldText (numberOf flags value) flags base width precision ∧
      (strs.flatten.length : ℤ) =
        max width (fieldBody (numberOf flags value) flags base precision).length := by
  have hformat := @formatInt_eq value flags base width precision hvalue (by omega)
  rw [if_pos hprecision] at hformat
  obtain ⟨strs, hstrs, htext⟩ := Option.map_eq_some_iff.mp hformat
  exact ⟨strs, hstrs, htext, by rw [htext, length_fieldText]⟩

/-- `%#010x` of 255. -/
theorem formatInt_field_hex : fieldText 255 (FL_HASH ||| FL_ZERO) 16 10 (-1) =
      "0x000000ff".toList.map code ∧
    ∃ strs, formatInt 255 (FL_HASH ||| FL_ZERO) 16 10 (-1) = some strs ∧
      strs.flatten = fieldText (numberOf (FL_HASH ||| FL_ZERO) 255) (FL_HASH ||| FL_ZERO) 16 10 (-1) ∧
      (strs.flatten.length : ℤ) = max 10
        (fieldBody (numberOf (FL_HASH ||| FL_ZERO) 255) (FL_HASH ||| FL_ZERO) 16 (-1)).length :=
  ⟨by decide, formatInt_field (by decide) (.inr (.inr rfl)) 10 (by decide)⟩

end Cyanea.IoBuffer

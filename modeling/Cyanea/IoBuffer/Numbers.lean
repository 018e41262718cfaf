/-
# The number that a string stands for

`strtoull` and `strtoll` return the value of the digits that follow the prefix, if it fits
into their result. The characters that are looked at in front of the digits go back into
the buffer: there is always room for one, and for two as long as they come from one filling
of the buffer.
-/

import Mathlib.Data.Nat.Digits.Defs
import Mathlib.Tactic.Ring
import Mathlib.Tactic.Tauto
import Cyanea.IoBuffer.RoundTrip

namespace Cyanea.IoBuffer

/-! ## Room in the buffer -/

section Room

variable {str text data : List UInt8} {w w' : World} {count turns : ℕ}

/-- A read that the buffer can serve moves its pointer on. -/
theorem readLoop_inptr {read : List UInt8}
    (hread : readLoop (strtoxHooks str) turns count read w = some (data, w'))
    (hin : w.io.in_ ≠ 0) (hsize : w.io.buf_size = 32) (hpos : 0 < count) (hlt : count < 32)
    (hturns : 3 ≤ turns) (henough : count ≤ w.io.in_ ∨ str.length ≤ w.taken) :
    w'.io.inptr = w.io.inptr + min count w.io.in_ ∧
      w'.io.in_ = w.io.in_ - min count w.io.in_ := by
  obtain ⟨k, rfl⟩ : ∃ k, turns = k + 3 := ⟨turns - 3, by omega⟩
  have hcount : count ≠ 0 := Nat.ne_of_gt hpos
  rw [readLoop, if_neg hcount, if_neg hin, readLoop] at hread
  by_cases hall : count ≤ w.io.in_
  · rw [if_pos (by omega)] at hread
    rw [← (Prod.mk.inj (Option.some.inj hread)).2]
    exact ⟨rfl, rfl⟩
  · -- the source gives nothing more
    have hsource : str.length ≤ w.taken := henough.resolve_left hall
    have hrest : ¬ count - min count w.io.in_ = 0 := by omega
    have hempty : w.io.in_ - min count w.io.in_ = 0 := by omega
    have hbuf : count - min count w.io.in_ < w.io.buf_size := by omega
    have hend : str.length - w.taken = 0 := by omega
    rw [if_neg hrest] at hread
    simp only [hempty, hbuf, opsRead, World.ready, strtoxHooks, hend, Nat.zero_min,
      length_slice, if_true] at hread
    rw [← (Prod.mk.inj (Option.some.inj hread)).2]
    exact ⟨rfl, hempty.symm⟩

/-- What is read in one piece can be pushed back. -/
theorem Holds.inptr (h : Holds str w text) (htext : text ≠ [])
    (hpos : 0 < count) (hlt : count < 32)
    (hpiece : w.io.in_ = 0 ∨ count ≤ w.io.in_ ∨ text.length ≤ w.io.in_)
    (hread : iobRead (strtoxHooks str) count w = some (data, w')) :
    min count text.length ≤ w'.io.inptr ∧
      (w.io.in_ = 0 → w'.io.in_ = min text.length 32 - min count text.length) := by
  have hleft := h.left
  have hsize := h.buf_size
  have hlen := List.length_pos_iff.mpr htext
  rw [iobRead, flushIf, if_neg (not_not.mpr h.out)] at hread
  simp only [ne_eq, not_true_eq_false, if_false] at hread
  by_cases hin : w.io.in_ = 0
  · obtain ⟨k, hk⟩ : ∃ k, 2 * count + 2 = k + 1 := ⟨2 * count + 1, rfl⟩
    have hcount : count ≠ 0 := Nat.ne_of_gt hpos
    have hbuf : count < w.io.buf_size := by omega
    have hready : World.ready (strtoxHooks str) w = str.length - w.taken := rfl
    have hfill : ¬ min (str.length - w.taken) w.io.buf_size = 0 := by omega
    rw [hk, readLoop, if_neg hcount, if_pos hin, if_pos hbuf] at hread
    simp only [opsRead, length_slice, hready, hfill, if_false] at hread
    obtain ⟨hinptr, hrest⟩ := readLoop_inptr hread hfill hsize hpos hlt (by omega)
      (by simp only; omega)
    simp only [hsize] at hinptr hrest
    omega
  · obtain ⟨hinptr, -⟩ := readLoop_inptr hread hin hsize hpos hlt (by omega) (by omega)
    omega

theorem iobUngetc_taken (c : UInt8) (w : World) : (iobUngetc c w).2.taken = w.taken := by
  rw [iobUngetc]
  split_ifs <;> rfl

/-- A character can be read and put back. -/
theorem Holds.peek {c : UInt8} (h : Holds str w (c :: text)) :
    ∃ w', iobRead (strtoxHooks str) 1 w = some ([c], w') ∧ Holds str w' text ∧
      Holds str (iobUngetc c w').2 (c :: text) ∧
      (w.io.in_ = 0 → w'.io.in_ = min (text.length + 1) 32 - 1 ∧
        (iobUngetc c w').2.io.in_ = min (text.length + 1) 32) := by
  obtain ⟨w', hread, hholds, hplaced⟩ := h.read 1
  have hne : c :: text ≠ [] := List.cons_ne_nil c text
  obtain ⟨hinptr, hin⟩ := h.inptr hne (by decide) (by decide) (by omega) hread
  rw [List.length_cons] at hinptr hin
  have hback := hholds.ungetc (hplaced hne (by decide) (by decide)) (by omega) c
  refine ⟨w', hread, hholds, hback.1, fun hempty => ?_⟩
  have hleft := hholds.left
  have hleft' := hback.1.left
  have hthere := hin hempty
  rw [iobUngetc_taken, List.length_cons] at hleft'
  omega

/-- Two characters can be read and put back, if they are in the buffer or both are not. -/
theorem Holds.peek_two {c₀ c₁ : UInt8} (h : Holds str w (c₀ :: c₁ :: text))
    (hin : w.io.in_ ≠ 1) :
    ∃ w', iobRead (strtoxHooks str) 2 w = some ([c₀, c₁], w') ∧ Holds str w' text ∧
      Holds str (iobUngetc c₀ (iobUngetc c₁ w').2).2 (c₀ :: c₁ :: text) := by
  obtain ⟨w', hread, hholds, hplaced⟩ := h.read 2
  have hne : c₀ :: c₁ :: text ≠ [] := List.cons_ne_nil c₀ _
  obtain ⟨hinptr, -⟩ := h.inptr hne (by decide) (by decide) (by omega) hread
  rw [List.length_cons, List.length_cons] at hinptr
  have hfirst := hholds.ungetc (hplaced hne (by decide) (by decide)) (by omega) c₁
  have hsecond := hfirst.1.ungetc hfirst.2.1 (by rw [hfirst.2.2]; omega) c₀
  exact ⟨w', hread, hholds, hsecond.1⟩

/-- A last character, when two are asked for. -/
theorem Holds.peek_last {c : UInt8} (h : Holds str w [c]) :
    ∃ w', iobRead (strtoxHooks str) 2 w = some ([c], w') ∧
      Holds str (iobUngetc c w').2 [c] := by
  obtain ⟨w', hread, hholds, hplaced⟩ := h.read 2
  have hne : [c] ≠ [] := List.cons_ne_nil c _
  obtain ⟨hinptr, -⟩ := h.inptr hne (by decide) (by decide)
    (by rw [List.length_singleton]; omega) hread
  rw [List.length_singleton] at hinptr
  have hback := hholds.ungetc (hplaced hne (by decide) (by decide)) (by omega) c
  exact ⟨w', hread, hback.1⟩

theorem Holds.read_end (h : Holds str w []) (count : ℕ) :
    ∃ w', iobRead (strtoxHooks str) count w = some ([], w') ∧ Holds str w' [] := by
  obtain ⟨w', hread, hholds, -⟩ := h.read count
  rw [List.take_nil] at hread
  rw [List.drop_nil] at hholds
  exact ⟨w', hread, hholds⟩

end Room

/-! ## The number -/

/-- The value of a character as a digit. -/
def digitOf (c : UInt8) : Option ℕ :=
  if code '0' ≤ c ∧ c ≤ code '9' then some (c.toNat - (code '0').toNat)
  else if code 'A' ≤ c ∧ c ≤ code 'F' then some (c.toNat - (code 'A').toNat + 10)
  else if code 'a' ≤ c ∧ c ≤ code 'f' then some (c.toNat - (code 'a').toNat + 10)
  else none

/-- The longest run of digits that are valid in the base. -/
def digitRun (base : ℕ) : List UInt8 → List ℕ
  | [] => []
  | c :: text =>
    match digitOf c with
    | some d => if d < base then d :: digitRun base text else []
    | none => []

/-- The base that is meant, and what follows the prefix that says so. -/
def baseOf (base : ℕ) : List UInt8 → ℕ × List UInt8
  | c₀ :: c₁ :: text =>
    if (base = 0 ∨ base = 16) ∧ c₀ = code '0' ∧ (c₁ = code 'x' ∨ c₁ = code 'X') then (16, text)
    else if base = 0 then if c₀ = code '0' then (8, c₁ :: text) else (10, c₀ :: c₁ :: text)
    else (base, c₀ :: c₁ :: text)
  | [c] => if base = 0 then if c = code '0' then (8, []) else (10, [c]) else (base, [c])
  | [] => if base = 0 then (10, []) else (base, [])

/-- The number that the string begins with, in the given base. -/
def magnitude (base : ℕ) (str : List UInt8) : ℕ :=
  Nat.ofDigits (baseOf base str).1 (digitRun (baseOf base str).1 (baseOf base str).2).reverse

/-- What `strtoull` returns for a number: the number, if it fits. -/
def converted (n : ℕ) : Converted := if n ≤ ULLONG_MAX then .ok n else .error (-ERANGE)

theorem digitValue_eq (c : UInt8) :
    digitValue c = match digitOf c with
      | some d => (d : ℤ)
      | none => -1 := by
  rw [digitValue, digitOf]
  by_cases hdigit : code '0' ≤ c ∧ c ≤ code '9'
  · rw [if_pos (show isdigit c from hdigit), if_pos hdigit, UInt8.toNat_sub_of_le _ _ hdigit.1]
  · rw [if_neg (show ¬ isdigit c from hdigit), if_neg hdigit]
    by_cases hupper : code 'A' ≤ c ∧ c ≤ code 'F'
    · have hisupper : isupper c := .inl ⟨hupper.1, UInt8.le_trans hupper.2 (by decide)⟩
      rw [if_pos (.inr (.inl hupper)), if_pos hisupper, if_pos hupper,
        UInt8.toNat_sub_of_le _ _ hupper.1]
      push_cast
      rfl
    · rw [if_neg hupper]
      by_cases hlower : code 'a' ≤ c ∧ c ≤ code 'f'
      · have hnot : ¬ isupper c := by
          rintro (⟨-, hle⟩ | ⟨hle, -⟩ | ⟨hle, -⟩)
          · exact absurd (UInt8.le_trans hlower.1 hle) (by decide)
          · exact absurd (UInt8.le_trans hle hlower.2) (by decide)
          · exact absurd (UInt8.le_trans hle hlower.2) (by decide)
        rw [if_pos (.inr (.inr hlower)), if_neg hnot, if_pos hlower,
          UInt8.toNat_sub_of_le _ _ hlower.1]
        push_cast
        rfl
      · rw [if_neg hlower, if_neg (by rintro (h | h | h) <;> contradiction)]

/-- The digits from the front on. -/
theorem ofDigits_reverse (base : ℕ) (ds : List ℕ) :
    Nat.ofDigits base ds.reverse = ds.foldl (fun n d => n * base + d) 0 := by
  rw [Nat.ofDigits_eq_foldr, List.foldr_reverse]
  congr 1
  funext n d
  simp only [Nat.cast_id]
  ring

theorem le_foldl_digits {base : ℕ} (hbase : 0 < base) (ds : List ℕ) (n : ℕ) :
    n ≤ ds.foldl (fun n d => n * base + d) n := by
  induction ds generalizing n with
  | nil => exact Nat.le_refl n
  | cons d ds ih =>
      calc n ≤ n * base + d := Nat.le_add_right_of_le (Nat.le_mul_of_pos_right n hbase)
        _ ≤ _ := ih (n * base + d)

/-- A number whose four upper bits are zero has room for one more digit. -/
theorem upper_bits {result base d : ℕ} (hresult : result < 2 ^ 64) (hbase : base ≤ 16)
    (hd : d < base) (hfull : 2 ^ 64 ≤ result * base + d) :
    result &&& ((ULLONG_MAX <<< 60) % 2 ^ 64) ≠ 0 ∧ (ULLONG_MAX - d) / base < result := by
  have hmul : result * base ≤ result * 16 := Nat.mul_le_mul_left result hbase
  have hmask : (ULLONG_MAX <<< 60) % 2 ^ 64 = 2 ^ 60 * 15 := by decide
  have hhigh : 2 ^ 60 ≤ result := by omega
  constructor
  · intro hzero
    have hshift := congrArg (fun n => n >>> 60) hzero
    simp only [hmask, Nat.shiftRight_and_distrib, Nat.zero_shiftRight] at hshift
    rw [Nat.shiftRight_eq_div_pow, Nat.shiftRight_eq_div_pow, Nat.mul_div_cancel_left _ (by decide),
      show 15 = 2 ^ 4 - 1 from rfl, Nat.and_two_pow_sub_one_eq_mod] at hshift
    omega
  · rw [Nat.div_lt_iff_lt_mul (by omega), ULLONG_MAX]
    omega

section Loop

variable {str text : List UInt8} {w : World} {base result turns : ℕ}

theorem strtoullLoop_run (hbase : base ≤ 16) (hresult : result < 2 ^ 64)
    (hturns : text.length < turns) (h : Holds str w text) :
    ∃ w', strtoullLoop (strtoxHooks str) base turns result w =
      some (converted ((digitRun base text).foldl (fun n d => n * base + d) result), w') := by
  have hfits : converted result = .ok result := if_pos (Nat.le_sub_one_of_lt hresult)
  induction text generalizing w result turns with
  | nil =>
      obtain ⟨turns, rfl⟩ : ∃ k, turns = k + 1 := ⟨turns - 1, by simp at hturns; omega⟩
      obtain ⟨w', hend⟩ := strtoullLoop_end h
      exact ⟨w', by rw [hend, digitRun, List.foldl_nil, hfits]⟩
  | cons c text ih =>
      obtain ⟨turns, rfl⟩ : ∃ k, turns = k + 1 := ⟨turns - 1, by simp at hturns; omega⟩
      obtain ⟨w₁, hread, hholds, -⟩ := h.peek
      have hvalue := digitValue_eq c
      rw [digitRun]
      cases hdigit : digitOf c with
      | none =>
          rw [hdigit] at hvalue
          refine ⟨(iobUngetc c w₁).2, ?_⟩
          rw [strtoullLoop, hread]
          simp only [Option.bind_eq_bind, Option.bind_some, hvalue, List.foldl_nil, hfits]
          rfl
      | some d =>
          rw [hdigit] at hvalue
          dsimp only
          by_cases hd : d < base
          · rw [if_pos hd, List.foldl_cons]
            by_cases hfit : result * base + d < 2 ^ 64
            · obtain ⟨w₂, hdone, hholds₂⟩ := strtoullLoop_digit hvalue hd hfit h
              rw [hdone]
              exact ih hfit (by simpa using hturns) hholds₂ (if_pos (Nat.le_sub_one_of_lt hfit))
            · have hfull := Nat.not_lt.mp hfit
              have hover := hfull.trans
                (le_foldl_digits (Nat.zero_lt_of_lt hd) (digitRun base text) (result * base + d))
              obtain ⟨hmask, hrange⟩ := upper_bits hresult hbase hd hfull
              refine ⟨(iobUngetc c w₁).2, ?_⟩
              rw [strtoullLoop, hread]
              simp only [Option.bind_eq_bind, Option.bind_some, hvalue]
              rw [if_pos ⟨Int.natCast_nonneg d, by exact_mod_cast hd⟩, Int.toNat_natCast,
                if_pos ⟨hmask, hrange⟩, converted,
                if_neg (Nat.not_le_of_lt (Nat.lt_of_lt_of_le (by decide) hover))]
              rfl
          · rw [if_neg hd]
            refine ⟨(iobUngetc c w₁).2, ?_⟩
            rw [strtoullLoop, hread]
            simp only [Option.bind_eq_bind, Option.bind_some, hvalue, List.foldl_nil, hfits]
            rw [if_neg (by rintro ⟨-, hlt⟩; exact hd (by exact_mod_cast hlt))]
            rfl

/-- The reader comes to the digits. -/
theorem strtoullPrefix_run (h : Holds str w text) (hin : w.io.in_ ≠ 1 ∨ text.length ≤ 1)
    (base : ℕ) : ∃ base' w', strtoullPrefix (strtoxHooks str) base w = some (base', w') ∧
      Holds str w' (baseOf base text).2 ∧ (base' = (baseOf base text).1 ∨ text = []) := by
  match text, h, hin with
  | [], h, _ =>
      have hnone : (baseOf base []).2 = [] := by
        rw [baseOf]
        split <;> rfl
      rw [hnone, strtoullPrefix]
      by_cases hzero : base = 0
      · obtain ⟨w', hread, hholds⟩ := h.read_end 1
        exact ⟨base, w', by rw [if_pos hzero, hread]; rfl, hholds, .inr rfl⟩
      · rw [if_neg hzero]
        by_cases hhex : base = 16
        · obtain ⟨w', hread, hholds⟩ := h.read_end 2
          exact ⟨base, w', by rw [if_pos hhex, hread]; rfl, hholds, .inr rfl⟩
        · exact ⟨base, w, by rw [if_neg hhex], h, .inr rfl⟩
  | [c], h, _ =>
      rw [baseOf, strtoullPrefix]
      by_cases hzero : base = 0
      · obtain ⟨w', hread, hholds, hback, -⟩ := h.peek
        rw [if_pos hzero, if_pos hzero, hread]
        simp only [Option.bind_eq_bind, Option.bind_some]
        by_cases hc : c = code '0'
        · obtain ⟨w'', hread', hholds'⟩ := hholds.read_end 1
          rw [if_pos hc, if_pos hc, hread']
          exact ⟨8, w'', rfl, hholds', .inl rfl⟩
        · rw [if_neg hc, if_neg hc]
          exact ⟨10, _, rfl, hback, .inl rfl⟩
      · rw [if_neg hzero, if_neg hzero]
        by_cases hhex : base = 16
        · obtain ⟨w', hread, hback⟩ := h.peek_last
          exact ⟨base, _, by rw [if_pos hhex, hread]; rfl, hback, .inl rfl⟩
        · exact ⟨base, w, by rw [if_neg hhex], h, .inl rfl⟩
  | c₀ :: c₁ :: text, h, hin =>
      rw [baseOf, strtoullPrefix]
      by_cases hzero : base = 0
      · obtain ⟨w', hread, hholds, hback, -⟩ := h.peek
        rw [if_pos hzero, hread]
        simp only [Option.bind_eq_bind, Option.bind_some, hzero, true_or, true_and, if_true]
        by_cases hc : c₀ = code '0'
        · obtain ⟨w'', hread', hholds', hback', -⟩ := hholds.peek
          rw [if_pos hc, hread']
          simp only [Option.bind_some, hc, true_and, if_true]
          by_cases hx : c₁ = code 'x' ∨ c₁ = code 'X'
          · rw [if_pos hx, if_pos hx]
            exact ⟨16, w'', rfl, hholds', .inl rfl⟩
          · rw [if_neg hx, if_neg hx]
            exact ⟨8, _, rfl, hback', .inl rfl⟩
        · simp only [hc, false_and, if_false]
          exact ⟨10, _, rfl, hback, .inl rfl⟩
      · rw [if_neg hzero]
        by_cases hhex : base = 16
        · have htwo : w.io.in_ ≠ 1 := hin.resolve_right (by simp)
          obtain ⟨w', hread, hholds, hback⟩ := h.peek_two htwo
          rw [if_pos hhex, hread]
          simp only [Option.bind_eq_bind, Option.bind_some]
          by_cases hprefix : c₀ = code '0' ∧ (c₁ = code 'x' ∨ c₁ = code 'X')
          · rw [if_neg (by tauto), if_pos ⟨.inr hhex, hprefix⟩]
            exact ⟨base, w', rfl, hholds, .inl hhex⟩
          · rw [if_pos (by tauto), if_neg (fun hp => hprefix hp.2), if_neg hzero]
            exact ⟨base, _, rfl, hback, .inl rfl⟩
        · rw [if_neg hhex, if_neg (by tauto), if_neg hzero]
          exact ⟨base, w, rfl, h, .inl rfl⟩

/-- The bases that the functions are made for. -/
def BaseOk (base : ℕ) : Prop := base = 0 ∨ 2 ≤ base ∧ base ≤ 16

theorem baseOf_le (h : BaseOk base) (text : List UInt8) : (baseOf base text).1 ≤ 16 := by
  have hle : base ≤ 16 := by
    obtain rfl | ⟨-, hle⟩ := h
    · decide
    · exact hle
  unfold baseOf
  split <;> split_ifs <;> dsimp only <;> omega

theorem baseOf_length (base : ℕ) (text : List UInt8) :
    (baseOf base text).2.length ≤ text.length := by
  unfold baseOf
  split <;> split_ifs <;> simp only [List.length_cons, List.length_nil] <;> omega

theorem iobStrtoull_run (hbase : BaseOk base) (hturns : text.length < turns)
    (h : Holds str w text) (hin : w.io.in_ ≠ 1 ∨ text.length ≤ 1) :
    ∃ w', iobStrtoull (strtoxHooks str) turns base w =
      some (converted (magnitude base text), w') := by
  obtain ⟨base', w₁, hprefix, hholds, hsame⟩ := strtoullPrefix_run h hin base
  have hlen := baseOf_length base text
  rw [iobStrtoull, hprefix, magnitude, ofDigits_reverse]
  simp only [Option.bind_eq_bind, Option.bind_some]
  obtain rfl | rfl := hsame
  · exact strtoullLoop_run (baseOf_le hbase text) (by decide) (by omega) hholds
  · -- there are no digits, so that their base does not matter
    have hnil : (baseOf base []).2 = [] := List.length_eq_zero_iff.mp (Nat.le_zero.mp hlen)
    obtain ⟨turns, rfl⟩ : ∃ k, turns = k + 1 := ⟨turns - 1, by simp at hturns; omega⟩
    rw [hnil] at hholds ⊢
    exact strtoullLoop_end hholds

end Loop

/-- `strtoull` returns the number that the string begins with, or `-ERANGE` if it does not
fit. -/
theorem strtoull_magnitude (str : CString) (inptr : ℕ) {base : ℕ} (hbase : BaseOk base) :
    strtoull str inptr base = some (converted (magnitude base str.chars)) := by
  obtain ⟨w', hrun⟩ := iobStrtoull_run hbase (Nat.lt_succ_self _) (holds_fresh str.chars inptr)
    (.inl nofun)
  rw [strtoull, hrun]
  rfl

/-- `0x1F`, which has 31 in it. -/
theorem strtoull_hex : magnitude 0 ("0x1Fg".toList.map code) = 31 ∧
    strtoull ⟨"0x1Fg".toList.map code, by decide⟩ 0 0 =
      some (converted (magnitude 0 ("0x1Fg".toList.map code))) :=
  ⟨by decide, strtoull_magnitude ⟨"0x1Fg".toList.map code, by decide⟩ 0 (.inl rfl)⟩

/-! ## Signs -/

/-- The signed number that the string begins with. -/
def signedNumber (base : ℕ) : List UInt8 → ℤ
  | [] => 0
  | c :: text =>
    if c = code '-' then -magnitude base text
    else if c = code '+' then magnitude base text
    else magnitude base (c :: text)

/-- What `strtoll` returns for a number: its bits, if it fits. -/
def convertedSigned (n : ℤ) : Converted :=
  if -2 ^ 63 ≤ n ∧ n < 2 ^ 63 then .ok (n % 2 ^ 64).toNat else .error (-ERANGE)

/-- The result is the signed number, or `-ERANGE`, and depends on the string only. -/
def StoresNumber (str : CString) (inptr base : ℕ) : Prop :=
  strtoll str inptr base = some (some (convertedSigned (signedNumber base str.chars)))

section Signed

variable {hooks : Hooks} {turns base n : ℕ} {c : UInt8} {text : List UInt8} {w w₁ w₂ : World}

/-- Behind a minus sign. -/
theorem iobStrtoll_negative (hread : iobRead hooks 1 w = some (code '-' :: text, w₁))
    (hcall : iobStrtoull hooks turns base w₁ = some (converted n, w₂)) :
    iobStrtoll hooks turns base w = some (some (convertedSigned (-n)), w₂) := by
  rw [iobStrtoll, hread]
  simp only [Option.bind_eq_bind, Option.bind_some, if_true, hcall]
  by_cases hfits : n ≤ ULLONG_MAX
  · have hlt : n < 2 ^ 64 := Nat.lt_of_le_of_lt hfits (by decide)
    have hneg : (-(n : ℤ) % 2 ^ 64).toNat = sub64 0 n := by
      rw [sub64]
      omega
    rw [converted, if_pos hfits, convertedSigned, hneg]
    by_cases hrange : n ≤ 2 ^ 63
    · have hstored : ¬ (sub64 0 n ≠ 0 ∧ sub64 0 n < 2 ^ 63) := by
        rw [sub64]
        omega
      rw [if_pos (by omega)]
      dsimp only
      rw [if_neg hstored]
      rfl
    · have hrefused : sub64 0 n ≠ 0 ∧ sub64 0 n < 2 ^ 63 := by
        rw [sub64]
        omega
      rw [if_neg (by omega)]
      dsimp only
      rw [if_pos hrefused]
      rfl
  · rw [converted, if_neg hfits, convertedSigned, if_neg (by rw [ULLONG_MAX] at hfits; omega)]
    rfl

/-- Behind a plus sign, or without a sign. -/
theorem iobStrtoll_positive (hread : iobRead hooks 1 w = some (c :: text, w₁))
    (hc : c ≠ code '-') (hcall : iobStrtoull hooks turns base
      (if c ≠ code '+' then (iobUngetc c w₁).2 else w₁) = some (converted n, w₂)) :
    iobStrtoll hooks turns base w = some (some (convertedSigned n), w₂) := by
  rw [iobStrtoll, hread]
  simp only [Option.bind_eq_bind, Option.bind_some, if_neg hc, hcall]
  by_cases hfits : n ≤ ULLONG_MAX
  · have hlt : n < 2 ^ 64 := Nat.lt_of_le_of_lt hfits (by decide)
    rw [converted, if_pos hfits, convertedSigned]
    dsimp only
    by_cases hrange : n < 2 ^ 63
    · rw [if_neg (Nat.not_le.mpr hrange), if_pos (by omega), Int.emod_eq_of_lt (by omega) (by omega),
        Int.toNat_natCast]
      rfl
    · rw [if_pos (Nat.not_lt.mp hrange), if_neg (by omega)]
      rfl
  · rw [converted, if_neg hfits, convertedSigned, if_neg (by rw [ULLONG_MAX] at hfits; omega)]
    rfl

end Signed

theorem strtoll_nil (inptr base : ℕ) : strtoll ⟨[], by decide⟩ inptr base = some none := by
  obtain ⟨w', hread, -⟩ := (holds_fresh [] inptr).read_end 1
  simp only [strtoll, iobStrtoll, hread]
  rfl

theorem storesNumber_cons {c : UInt8} {text : List UInt8} (hnul : 0 ∉ c :: text) (inptr : ℕ)
    {base : ℕ} (hbase : BaseOk base) : StoresNumber ⟨c :: text, hnul⟩ inptr base := by
  obtain ⟨w₁, hread, hholds, hback, hin⟩ := (holds_fresh (c :: text) inptr).peek
  obtain ⟨hin₁, hin₂⟩ := hin rfl
  suffices hrun : ∃ w', iobStrtoll (strtoxHooks (c :: text)) ((c :: text).length + 1) base
      (.fresh (strtoxIo inptr)) = some (some (convertedSigned (signedNumber base (c :: text))), w') by
    obtain ⟨w', hrun⟩ := hrun
    rw [StoresNumber, strtoll, hrun]
    rfl
  rw [signedNumber]
  by_cases hminus : c = code '-'
  · obtain ⟨w', hcall⟩ := iobStrtoull_run hbase
      (show text.length < (c :: text).length + 1 by rw [List.length_cons]; omega) hholds (by omega)
    rw [if_pos hminus]
    rw [hminus] at hread hcall ⊢
    exact ⟨w', iobStrtoll_negative hread hcall⟩
  · rw [if_neg hminus]
    by_cases hplus : c = code '+'
    · obtain ⟨w', hcall⟩ := iobStrtoull_run hbase
        (show text.length < (c :: text).length + 1 by rw [List.length_cons]; omega) hholds
        (by omega)
      rw [if_pos hplus]
      exact ⟨w', iobStrtoll_positive hread hminus (by rwa [if_neg (not_not.mpr hplus)])⟩
    · obtain ⟨w', hcall⟩ := iobStrtoull_run hbase (Nat.lt_succ_self (c :: text).length) hback
        (by rw [List.length_cons]; omega)
      rw [if_neg hplus]
      exact ⟨w', iobStrtoll_positive hread hminus (by rwa [if_pos hplus])⟩

/-- Nothing is stored for the empty string, and the number that it begins with for any
other. -/
theorem storesNumber_iff (str : CString) (inptr : ℕ) {base : ℕ} (hbase : BaseOk base) :
    StoresNumber str inptr base ↔ str.chars ≠ [] := by
  obtain ⟨chars, hnul⟩ := str
  cases chars with
  | nil =>
      refine iff_of_false ?_ (not_not.mpr rfl)
      rw [StoresNumber, strtoll_nil]
      exact nofun
  | cons c text => exact iff_of_true (storesNumber_cons hnul inptr hbase) (List.cons_ne_nil c text)

theorem storesNumber_minus :
    StoresNumber ⟨"-8".toList.map code, by decide⟩ 0 10 ↔ "-8".toList.map code ≠ [] :=
  storesNumber_iff ⟨"-8".toList.map code, by decide⟩ 0 (.inr (by decide))

theorem not_storesNumber_empty : ¬ StoresNumber ⟨[], by decide⟩ 0 10 := by
  rw [StoresNumber, strtoll_nil]
  exact nofun

end Cyanea.IoBuffer

/-
# What is printed can be read

The digits that `format_int` prints are read back as the number they stand for. The reader
is followed through its buffer: `Holds` says which part of the string it still has in front
of it.
-/

import Cyanea.IoBuffer.Strtox
import Cyanea.IoBuffer.Vsnprintf
import Mathlib.Tactic.IntervalCases

namespace Cyanea.IoBuffer

/-! ## Digits -/

theorem digitValue_digits (flags : ℕ) {i : ℕ} (hi : i < 16) :
    digitValue (digits flags i) = i := by
  rw [digits]
  by_cases hup : Has flags FL_UPPER
  · rw [if_pos hup]
    interval_cases i <;> decide
  · rw [if_neg hup]
    interval_cases i <;> decide

/-- A digit is none of the characters that stand in front of digits. -/
theorem digits_ne (flags : ℕ) {i : ℕ} (hi : i < 16) :
    digits flags i ≠ 0 ∧ digits flags i ≠ code 'x' ∧ digits flags i ≠ code 'X' ∧
      digits flags i ≠ code '-' ∧ digits flags i ≠ code '+' := by
  rw [digits]
  by_cases hup : Has flags FL_UPPER
  · rw [if_pos hup]
    interval_cases i <;> decide
  · rw [if_neg hup]
    interval_cases i <;> decide

theorem lt_pow_countDigits {base : ℕ} (hbase : 1 < base) (value : ℕ) :
    value < base ^ countDigits base value := by
  induction value using Nat.strongRecOn with
  | ind value ih =>
      rw [countDigits]
      by_cases hmore : 1 < base ∧ value / base ≠ 0
      · rw [dif_pos hmore, pow_succ]
        have hlt : value / base < value := by
          apply Nat.div_lt_self _ hbase
          rcases Nat.eq_zero_or_pos value with rfl | hpos
          · exact absurd (Nat.zero_div base) hmore.2
          · exact hpos
        exact (Nat.div_lt_iff_lt_mul (by omega)).1 (ih _ hlt)
      · rw [dif_neg hmore, pow_one]
        have hzero : value / base = 0 := by
          by_contra hne
          exact hmore ⟨hbase, hne⟩
        exact (Nat.div_eq_zero_iff_lt (by omega)).1 hzero

theorem countDigits_pos (base value : ℕ) : 0 < countDigits base value := by
  rw [countDigits]
  split <;> omega

theorem countDigits_le {base value k : ℕ} (hbase : 1 < base) (hk : 0 < k)
    (h : value < base ^ k) : countDigits base value ≤ k := by
  induction k generalizing value with
  | zero => omega
  | succ k ih =>
      rw [countDigits]
      by_cases hmore : 1 < base ∧ value / base ≠ 0
      · rw [dif_pos hmore]
        have hdiv : value / base < base ^ k := by
          rw [Nat.div_lt_iff_lt_mul (by omega), ← pow_succ]
          exact h
        have hkpos : 0 < k := by
          by_contra hzero
          obtain rfl : k = 0 := by omega
          rw [pow_zero] at hdiv
          exact hmore.2 (Nat.lt_one_iff.1 hdiv)
        exact Nat.succ_le_succ (ih hkpos hdiv)
      · rw [dif_neg hmore]
        omega

/-- Every character that is printed is a digit. -/
theorem mem_putDigits {flags base : ℕ} (hbase : 0 < base) {k value : ℕ} {t : List UInt8}
    {c : UInt8} (h : c ∈ putDigits flags base k value t) :
    (∃ i < base, c = digits flags i) ∨ c ∈ t := by
  induction k generalizing value t with
  | zero => exact .inr h
  | succ k ih =>
      rcases ih h with hdigit | hmem
      · exact .inl hdigit
      · rcases List.mem_cons.1 hmem with rfl | hmem
        · exact .inl ⟨_, Nat.mod_lt _ hbase, rfl⟩
        · exact .inr hmem

theorem length_putDigits (flags base k value : ℕ) (t : List UInt8) :
    (putDigits flags base k value t).length = k + t.length := by
  induction k generalizing value t with
  | zero => simp [putDigits]
  | succ k ih =>
      rw [putDigits, ih, List.length_cons]
      omega

/-! ## The reader -/

/-- The reader of `str` has `text` in front of it. -/
structure Holds (str : List UInt8) (w : World) (text : List UInt8) : Prop where
  left : text.length = w.io.in_ + (str.length - w.taken)
  taken_le : w.taken ≤ str.length
  stream : slice (w.stream (strtoxHooks str)) 0 text.length = text
  inside : w.Inside
  out : w.io.out = 0
  buf_size : w.io.buf_size = 32

variable {str text : List UInt8} {w : World}

theorem Holds.congr {text' : List UInt8} (h : Holds str w text) (heq : text = text') :
    Holds str w text' :=
  heq ▸ h

theorem slice_source (str : List UInt8) :
    slice (strtoxHooks str).source 0 str.length = str := by
  apply List.ext_getElem (length_slice ..)
  intro i hi hi'
  rw [← List.getD_eq_getElem _ 0 hi, getD_slice _ _ hi', Nat.zero_add]
  exact List.getD_eq_getElem _ 0 hi'

theorem holds_fresh (str : List UInt8) (inptr : ℕ) :
    Holds str (.fresh (strtoxIo inptr)) str := by
  refine ⟨(Nat.zero_add _).symm, Nat.zero_le _, ?_, ?_, rfl, rfl⟩
  · rw [stream_of_empty rfl, slice_behind]
    exact slice_source str
  · intro i hi hlt
    simp only [World.fresh, strtoxIo] at hi hlt
    omega

/-- A read gets what it asks for, or what there is. -/
theorem Holds.read (h : Holds str w text) (count : ℕ) :
    ∃ w', iobRead (strtoxHooks str) count w = some (text.take count, w') ∧
      Holds str w' (text.drop count) ∧ (text ≠ [] → 0 < count → count < 32 → w'.Placed) := by
  obtain ⟨data, w', hread, hdel, hexh⟩ :=
    iobRead_delivers (strtoxHooks str) count h.inside h.out
  have hleft := h.left
  have htaken := h.taken_le
  have hle := hdel.bounded str.length (fun _ _ => Nat.le_refl _) htaken
  have haccount := hdel.account
  have hcount := hdel.length_le
  have hlen : data.length = min count text.length := by
    by_cases hshort : data.length < count
    · obtain ⟨hempty, hready⟩ := hexh hshort
      change str.length - w'.taken = 0 at hready
      omega
    · omega
  have htake : text.take count = text.take data.length := by
    rw [hlen, ← List.take_eq_take_min]
  have hdrop : text.drop count = text.drop data.length := by
    rw [hlen, ← List.drop_eq_drop_min]
  have hsplit := slice_add (w.stream (strtoxHooks str)) 0 data.length
    (text.length - data.length)
  rw [Nat.add_sub_of_le (by omega), h.stream, Nat.zero_add, ← hdel.data_eq] at hsplit
  rw [htake, hdrop]
  refine ⟨w', ?_, ⟨?_, hle, ?_, hdel.inside, hdel.out.trans h.out,
    hdel.buf_size.trans h.buf_size⟩, ?_⟩
  · rw [hread]
    conv_rhs => rw [hsplit]
    rw [List.take_left' rfl]
  · rw [List.length_drop]
    omega
  · rw [hdel.stream, slice_behind, Nat.add_zero, List.length_drop]
    conv_rhs => rw [hsplit]
    rw [List.drop_left' rfl]
  · intro htext hpos hlt
    apply hdel.located
    · rwa [h.buf_size]
    · intro hnil
      have := List.length_pos_iff.2 htext
      rw [hnil, List.length_nil] at hlen
      omega

/-- A character that is pushed back where there is room is in front of the reader again. -/
theorem Holds.ungetc (h : Holds str w text) (hplaced : w.Placed) (hroom : w.io.inptr ≠ 0)
    (c : UInt8) :
    Holds str (iobUngetc c w).2 (c :: text) ∧ (iobUngetc c w).2.Placed ∧
      (iobUngetc c w).2.io.inptr = w.io.inptr - 1 := by
  obtain ⟨-, hpushes⟩ := iobUngetc_room (strtoxHooks str) c h.out hplaced hroom
  refine ⟨⟨?_, ?_, ?_, hpushes.placed.inside, hpushes.out, hpushes.buf_size.trans h.buf_size⟩,
    hpushes.placed, ?_⟩
  · have hleft := h.left
    rw [iobUngetc, if_neg (not_not.2 h.out), if_neg hroom, List.length_cons]
    simp only
    omega
  · rw [iobUngetc, if_neg (not_not.2 h.out), if_neg hroom]
    exact h.taken_le
  · rw [hpushes.stream, List.length_cons, slice]
    have hrest : slice (push c (w.stream (strtoxHooks str))) (0 + 1) text.length =
        slice (w.stream (strtoxHooks str)) 0 text.length := by
      apply slice_congr
      intro i _
      rw [push, if_neg (by omega), Nat.zero_add, Nat.zero_add, Nat.add_sub_cancel_left]
    rw [hrest, h.stream]
    rfl
  · rw [iobUngetc, if_neg (not_not.2 h.out), if_neg hroom]

/-- A first read leaves room to push its characters back. -/
theorem inptr_of_fresh {inptr count : ℕ} {data : List UInt8} {w' : World}
    (hpos : 0 < count) (hlt : count < 32) (hstr : str ≠ [])
    (hread : iobRead (strtoxHooks str) count (.fresh (strtoxIo inptr)) = some (data, w')) :
    w'.io.inptr = min count str.length := by
  have hlen : 0 < str.length := List.length_pos_iff.2 hstr
  obtain ⟨k, hk⟩ : ∃ k, 2 * count + 2 = k + 3 := ⟨2 * count - 1, by omega⟩
  have hcount : count ≠ 0 := Nat.ne_of_gt hpos
  have hfill : min str.length 32 ≠ 0 := by omega
  have hready : ∀ io emitted taken calls,
      World.ready (strtoxHooks str) ⟨io, emitted, taken, calls⟩ = str.length - taken :=
    fun _ _ _ _ => rfl
  rw [iobRead, flushIf, if_neg (by simp [World.fresh])] at hread
  simp only [ne_eq, not_true_eq_false, if_false, hk] at hread
  -- the buffer is filled, and then emptied as far as it was asked for
  have hin : (World.fresh (strtoxIo inptr)).io.in_ = 0 := rfl
  rw [readLoop, if_neg hcount, if_pos hin] at hread
  simp only [World.fresh, strtoxIo, hlt, if_true, opsRead, length_slice, hready,
    Nat.sub_zero, hfill, if_false] at hread
  rw [readLoop, if_neg hcount] at hread
  simp only [hfill, if_false] at hread
  rw [readLoop] at hread
  by_cases hall : count - min count (min str.length 32) = 0
  · simp only [hall, if_true, Option.some.injEq, Prod.mk.injEq] at hread
    rw [← hread.2]
    simp only
    omega
  · have hempty : min str.length 32 - min count (min str.length 32) = 0 := by omega
    have hbuf : count - min count (min str.length 32) < 32 := by omega
    have hend : min (str.length - (0 + min str.length 32)) 32 = 0 := by omega
    simp only [hall, if_false, hempty, if_true, hbuf, opsRead, hready, hend, length_slice,
      Option.some.injEq, Prod.mk.injEq] at hread
    rw [← hread.2]
    simp only
    omega

/-! ## The digits are read -/

/-- A digit that fits is taken in. -/
theorem strtoullLoop_digit {base result i turns : ℕ} {c : UInt8} (hc : digitValue c = i)
    (hi : i < base) (hfit : result * base + i < 2 ^ 64) (h : Holds str w (c :: text)) :
    ∃ w', strtoullLoop (strtoxHooks str) base (turns + 1) result w =
        strtoullLoop (strtoxHooks str) base turns (result * base + i) w' ∧
      Holds str w' text := by
  obtain ⟨w', hread, hholds, -⟩ := h.read 1
  refine ⟨w', ?_, hholds⟩
  have hdigit : 0 ≤ digitValue c ∧ digitValue c < base := by
    rw [hc]
    omega
  have hrange : ¬ (ULLONG_MAX - i) / base < result := by
    rw [Nat.not_lt, Nat.le_div_iff_mul_le (by omega), ULLONG_MAX]
    omega
  rw [strtoullLoop, hread]
  simp only [List.take_succ_cons, Option.bind_eq_bind, Option.bind_some]
  rw [if_pos hdigit, hc, Int.toNat_natCast, if_neg (fun h => hrange h.2), Nat.mod_eq_of_lt hfit]

/-- The digits of a number are read as the number. -/
theorem strtoullLoop_digits {flags base : ℕ} (hbase : 0 < base ∧ base ≤ 16) {k value : ℕ}
    (hvalue : value < 2 ^ 64) (turns : ℕ) (h : Holds str w (putDigits flags base k value text)) :
    ∃ w', strtoullLoop (strtoxHooks str) base (turns + k) 0 w =
        strtoullLoop (strtoxHooks str) base turns (value % base ^ k) w' ∧
      Holds str w' text := by
  induction k generalizing value text turns with
  | zero =>
      refine ⟨w, ?_, h⟩
      rw [pow_zero, Nat.mod_one]
      rfl
  | succ k ih =>
      have hlt : value % base < base := Nat.mod_lt _ hbase.1
      have hsplit : value % base ^ (k + 1) = value / base % base ^ k * base + value % base := by
        rw [pow_succ', Nat.mod_mul, Nat.mul_comm base, Nat.add_comm]
      have hfit : value / base % base ^ k * base + value % base < 2 ^ 64 := by
        rw [← hsplit]
        exact Nat.lt_of_le_of_lt (Nat.mod_le _ _) hvalue
      obtain ⟨w₁, hfirst, hholds⟩ := ih (Nat.lt_of_le_of_lt (Nat.div_le_self _ _) hvalue)
        (turns + 1) h
      obtain ⟨w', hlast, hholds'⟩ : ∃ w', strtoullLoop _ base (turns + 1) _ w₁ = _ ∧ _ :=
        strtoullLoop_digit (digitValue_digits flags (by omega)) hlt hfit hholds
      refine ⟨w', ?_, hholds'⟩
      rw [Nat.add_right_comm] at hfirst
      show strtoullLoop _ base (turns + k + 1) 0 w = _
      rw [hsplit, ← hlast, ← hfirst]

theorem strtoullLoop_end {base turns result : ℕ} (h : Holds str w []) :
    ∃ w', strtoullLoop (strtoxHooks str) base (turns + 1) result w = some (.ok result, w') := by
  obtain ⟨w', hread, -⟩ := h.read 1
  refine ⟨w', ?_⟩
  rw [strtoullLoop, hread]
  rfl

/-- The digits up to the end of the string. -/
theorem strtoullLoop_all {flags base k value turns : ℕ} (hbase : 0 < base ∧ base ≤ 16)
    (hvalue : value < 2 ^ 64) (hk : value < base ^ k) (hturns : k < turns)
    (h : Holds str w (putDigits flags base k value [])) :
    ∃ w', strtoullLoop (strtoxHooks str) base turns 0 w = some (.ok value, w') := by
  obtain ⟨rest, rfl⟩ : ∃ rest, turns = rest + 1 + k := ⟨turns - (k + 1), by omega⟩
  obtain ⟨w₁, hdigits, hholds⟩ := strtoullLoop_digits hbase hvalue (rest + 1) h
  obtain ⟨w', hend⟩ := strtoullLoop_end hholds
  exact ⟨w', by rw [hdigits, Nat.mod_eq_of_lt hk, hend]⟩

/-! ## The characters in front -/

/-- One character is read and pushed back. -/
theorem read_one_back {c : UInt8} {rest : List UInt8} (inptr : ℕ) :
    ∃ w, iobRead (strtoxHooks (c :: rest)) 1 (.fresh (strtoxIo inptr)) = some ([c], w) ∧
      Holds (c :: rest) (iobUngetc c w).2 (c :: rest) := by
  obtain ⟨w, hread, hholds, hplaced⟩ := (holds_fresh (c :: rest) inptr).read 1
  have hroom := inptr_of_fresh (by decide) (by decide) (List.cons_ne_nil _ _) hread
  refine ⟨w, hread, (hholds.ungetc (hplaced (List.cons_ne_nil _ _) (by decide) (by decide))
    ?_ c).1⟩
  rw [hroom, List.length_cons]
  omega

/-- A prefix that is none is pushed back. -/
theorem strtoullPrefix_none (inptr : ℕ) (hstr : str ≠ [])
    (hx : ∀ c ∈ str, c ≠ code 'x' ∧ c ≠ code 'X') :
    ∃ w, strtoullPrefix (strtoxHooks str) 16 (.fresh (strtoxIo inptr)) = some (16, w) ∧
      Holds str w str := by
  obtain ⟨w, hread, hholds, hlocated⟩ := (holds_fresh str inptr).read 2
  have hplaced := hlocated hstr (by decide) (by decide)
  have hroom := inptr_of_fresh (by decide) (by decide) hstr hread
  clear hlocated
  match str, hstr with
  | [c₀], _ =>
      have hback := (hholds.ungetc hplaced (by rw [hroom]; simp) c₀).1
      exact ⟨_, by simp [strtoullPrefix, hread], hback⟩
  | c₀ :: c₁ :: rest, _ =>
      have hfirst := hholds.ungetc hplaced (by rw [hroom, List.length_cons]; simp) c₁
      have hback := (hfirst.1.ungetc hfirst.2.1 (by
        rw [hfirst.2.2, hroom, List.length_cons, List.length_cons]
        omega) c₀).1
      have hx₁ := hx c₁ (List.mem_cons_of_mem _ List.mem_cons_self)
      exact ⟨_, by simp [strtoullPrefix, hread, hx₁], hback⟩

/-- A prefix that is one is consumed. -/
theorem strtoullPrefix_hex {c : UInt8} (hc : c = code 'x' ∨ c = code 'X') (inptr : ℕ) :
    ∃ w, strtoullPrefix (strtoxHooks (code '0' :: c :: text)) 16 (.fresh (strtoxIo inptr)) =
        some (16, w) ∧ Holds (code '0' :: c :: text) w text := by
  obtain ⟨w, hread, hholds, -⟩ := (holds_fresh (code '0' :: c :: text) inptr).read 2
  refine ⟨w, ?_, hholds⟩
  rcases hc with rfl | rfl
  · simp [strtoullPrefix, hread]
  · simp [strtoullPrefix, hread]

/-! ## What is printed -/

/-- The sign that stands in front. -/
def signText (flags : ℕ) (minus : Prop) [Decidable minus] : List UInt8 :=
  if minus then [code '-'] else if Has flags FL_PLUS then [code '+'] else []

theorem signText_congr (flags : ℕ) {p q : Prop} [Decidable p] [Decidable q] (h : p ↔ q) :
    signText flags p = signText flags q :=
  if_congr h rfl rfl

/-- What `#` puts in front. -/
def prefixText (flags base : ℕ) : List UInt8 :=
  if Has flags FL_HASH then
    if base = 16 then [code '0', if Has flags FL_UPPER then code 'X' else code 'x']
    else if base = 8 then [code '0']
    else []
  else []

theorem putPadding_zero (condition : Prop) [Decidable condition] (c : UInt8) {nchar : ℤ}
    (h : 0 ≤ nchar) : putPadding condition c 0 nchar = [] := by
  rw [putPadding, if_neg (fun hc => by omega)]

/-- Without a width, a number is its sign, its prefix and enough of its digits. -/
theorem formatInt_text {value flags base : ℕ} {precision : ℤ} (hspace : ¬ Has flags FL_SPACE)
    (hbase : 8 ≤ base) (hprec : precision ≤ 64) {v : ℕ} (hv : v < 2 ^ 64)
    (hvalue : v = if Has flags FL_SIGNED ∧ 2 ^ 63 ≤ value then sub64 0 value else value) :
    ∃ writes n, formatInt value flags base 0 precision = some writes ∧ v < base ^ n ∧ 0 < n ∧
      writes.flatten = signText flags (Has flags FL_SIGNED ∧ 2 ^ 63 ≤ value) ++
        (prefixText flags base ++ putDigits flags base n v []) := by
  have hcount : countDigits base v ≤ 22 := by
    apply countDigits_le (by omega) (by decide)
    calc v < 2 ^ 64 := hv
      _ ≤ 8 ^ 22 := by norm_num
      _ ≤ base ^ 22 := Nat.pow_le_pow_left hbase 22
  have hpos := countDigits_pos base v
  have hfits : max (countDigits base v : ℤ) precision ≤ 64 := by omega
  have hle : countDigits base v ≤ (max (countDigits base v : ℤ) precision).toNat := by omega
  have hlt : v < base ^ (max (countDigits base v : ℤ) precision).toNat :=
    Nat.lt_of_lt_of_le (lt_pow_countDigits (by omega) v) (Nat.pow_le_pow_right (by omega) hle)
  have hnchar : (0 : ℤ) ≤ max (countDigits base v : ℤ) precision +
      (if (Has flags FL_SIGNED ∧ 2 ^ 63 ≤ value) ∨ Has flags FL_PLUS ∨ Has flags FL_SPACE
        then 1 else 0) +
      (if Has flags FL_HASH then if base = 16 then 2 else if base = 8 then 1 else 0
        else 0) := by
    split_ifs <;> omega
  simp only [formatInt, ← hvalue, if_pos hfits, putPadding_zero _ _ hnchar]
  refine ⟨_, _, rfl, hlt, by omega, ?_⟩
  simp only [List.nil_append, List.append_nil, List.flatten_append, List.flatten_cons,
    List.flatten_nil, ← List.append_assoc]
  congr 1
  congr 1
  · rw [signText, if_neg hspace]
    split_ifs <;> rfl
  · rw [prefixText]
    split_ifs <;> rfl

/-- The flags of a directive, apart from its type. -/
def flagBits (hash plus upper : Bool) : ℕ :=
  (if hash then FL_HASH else 0) ||| (if plus then FL_PLUS else 0) |||
    (if upper then FL_UPPER else 0)

theorem flagBits_space (hash plus upper : Bool) : ¬ Has (flagBits hash plus upper) FL_SPACE := by
  cases hash <;> cases plus <;> cases upper <;> decide

theorem flagBits_signed (hash plus upper : Bool) :
    ¬ Has (flagBits hash plus upper) FL_SIGNED := by
  cases hash <;> cases plus <;> cases upper <;> decide

theorem flagBits_plus (hash upper : Bool) : ¬ Has (flagBits hash false upper) FL_PLUS := by
  cases hash <;> cases upper <;> decide

theorem flagBits_or_signed (hash plus upper : Bool) :
    Has (flagBits hash plus upper ||| FL_SIGNED) FL_SIGNED ∧
      ¬ Has (flagBits hash plus upper ||| FL_SIGNED) FL_SPACE := by
  cases hash <;> cases plus <;> cases upper <;> decide

/-! ## Back again -/

/-- What is written is a string, and is parsed as the result. -/
def ReadsAs {α : Type} (writes : Option (List (List UInt8))) (parse : CString → Option α)
    (result : α) : Prop :=
  ∃ strs, writes = some strs ∧ ∃ str : CString, str.chars = strs.flatten ∧
    parse str = some result

theorem putDigits_ne {flags base k value : ℕ} (hbase : 0 < base ∧ base ≤ 16) {c : UInt8}
    (h : c ∈ putDigits flags base k value []) :
    c ≠ 0 ∧ c ≠ code 'x' ∧ c ≠ code 'X' ∧ c ≠ code '-' ∧ c ≠ code '+' := by
  rcases mem_putDigits hbase.1 h with ⟨i, hi, rfl⟩ | hmem
  · exact digits_ne flags (Nat.lt_of_lt_of_le hi hbase.2)
  · cases hmem

theorem prefixText_noNul (flags base : ℕ) : 0 ∉ prefixText flags base := by
  rw [prefixText]
  split_ifs <;> decide

theorem prefixText_ten (flags : ℕ) : prefixText flags 10 = [] := by
  simp [prefixText]

/-- The prefix and the digits of a number, in each of the bases. -/
theorem iobStrtoull_text {flags base k value : ℕ} (inptr : ℕ)
    (hbase : base = 8 ∨ base = 10 ∨ base = 16) (hvalue : value < 2 ^ 64)
    (hk : value < base ^ k) (hpos : 0 < k)
    (hstr : str = prefixText flags base ++ putDigits flags base k value []) :
    ∃ w, iobStrtoull (strtoxHooks str) (str.length + 1) base (.fresh (strtoxIo inptr)) =
      some (.ok value, w) := by
  have hrange : 0 < base ∧ base ≤ 16 := by omega
  have hlen : k ≤ str.length := by
    rw [hstr, List.length_append, length_putDigits]
    exact Nat.le_add_left k _
  have hfresh := holds_fresh str inptr
  rcases hbase with rfl | rfl | rfl
  · -- the prefix of an octal number is one more digit
    by_cases hhash : Has flags FL_HASH
    · have htext : prefixText flags 8 = [code '0'] := by simp [prefixText, hhash]
      rw [htext] at hstr
      have hlong : str.length = k + 1 := by
        rw [hstr, List.length_append, length_putDigits, List.length_singleton, List.length_nil]
        omega
      have hzero : digitValue (code '0') = (0 : ℕ) := by decide
      obtain ⟨w₁, hfirst, hholds⟩ : ∃ w₁, strtoullLoop (strtoxHooks str) 8 (str.length + 1) 0
          (.fresh (strtoxIo inptr)) = strtoullLoop _ 8 str.length (0 * 8 + 0) w₁ ∧ _ :=
        strtoullLoop_digit hzero (by decide) (by decide) (hfresh.congr hstr)
      have hturns : k < str.length := by omega
      obtain ⟨w, hloop⟩ := strtoullLoop_all hrange hvalue hk hturns hholds
      exact ⟨w, hfirst.trans hloop⟩
    · have htext : prefixText flags 8 = [] := by simp [prefixText, hhash]
      rw [htext, List.nil_append] at hstr
      obtain ⟨w, hloop⟩ := strtoullLoop_all hrange hvalue hk (Nat.lt_succ_of_le hlen)
        (hfresh.congr hstr)
      exact ⟨w, hloop⟩
  · rw [prefixText_ten, List.nil_append] at hstr
    obtain ⟨w, hloop⟩ := strtoullLoop_all hrange hvalue hk (Nat.lt_succ_of_le hlen)
      (hfresh.congr hstr)
    exact ⟨w, hloop⟩
  · by_cases hhash : Has flags FL_HASH
    · have hx : ∃ c, (c = code 'x' ∨ c = code 'X') ∧ prefixText flags 16 = [code '0', c] := by
        by_cases hup : Has flags FL_UPPER
        · exact ⟨_, .inr rfl, by simp [prefixText, hhash, hup]⟩
        · exact ⟨_, .inl rfl, by simp [prefixText, hhash, hup]⟩
      obtain ⟨c, hc, htext⟩ := hx
      rw [htext] at hstr
      subst hstr
      obtain ⟨w₁, hprefix, hholds⟩ := strtoullPrefix_hex hc inptr
      obtain ⟨w, hloop⟩ := strtoullLoop_all hrange hvalue hk (Nat.lt_succ_of_le hlen) hholds
      refine ⟨w, ?_⟩
      rw [← hloop, iobStrtoull]
      exact congrArg (· >>= _) hprefix
    · have htext : prefixText flags 16 = [] := by simp [prefixText, hhash]
      rw [htext, List.nil_append] at hstr
      have hne : str ≠ [] := List.length_pos_iff.1 (Nat.lt_of_lt_of_le hpos hlen)
      obtain ⟨w₁, hprefix, hholds⟩ := strtoullPrefix_none inptr hne fun c hc => by
        rw [hstr] at hc
        obtain ⟨-, hx, hX, -⟩ := putDigits_ne hrange hc
        exact ⟨hx, hX⟩
      obtain ⟨w, hloop⟩ := strtoullLoop_all hrange hvalue hk (Nat.lt_succ_of_le hlen)
        (hholds.congr hstr)
      refine ⟨w, ?_⟩
      rw [← hloop, iobStrtoull]
      exact congrArg (· >>= _) hprefix

theorem strtoull_formatInt {value base : ℕ} (hvalue : value < 2 ^ 64)
    (hbase : base = 8 ∨ base = 10 ∨ base = 16) {precision : ℤ} (hprec : precision ≤ 64)
    (hash upper : Bool) (inptr : ℕ) :
    ReadsAs (formatInt value (flagBits hash false upper) base 0 precision)
      (fun str => strtoull str inptr base) (.ok value) := by
  have hrange : 0 < base ∧ base ≤ 16 := by omega
  have hsigned := flagBits_signed hash false upper
  have hlarge : 8 ≤ base := by omega
  obtain ⟨strs, k, hformat, hk, hpos, htext⟩ := formatInt_text (flagBits_space hash false upper)
    hlarge hprec hvalue (if_neg fun h => hsigned h.1).symm
  have hsign : signText (flagBits hash false upper)
      (Has (flagBits hash false upper) FL_SIGNED ∧ 2 ^ 63 ≤ value) = [] := by
    rw [signText, if_neg fun h => hsigned h.1, if_neg (flagBits_plus hash upper)]
  rw [hsign, List.nil_append] at htext
  have hnul : 0 ∉ strs.flatten := by
    rw [htext, List.mem_append]
    rintro (hmem | hmem)
    · exact prefixText_noNul _ _ hmem
    · exact (putDigits_ne hrange hmem).1 rfl
  refine ⟨strs, hformat, ⟨strs.flatten, hnul⟩, rfl, ?_⟩
  obtain ⟨w, hcall⟩ := iobStrtoull_text inptr hbase hvalue hk hpos htext
  exact congrArg (· >>= fun r => some r.1) hcall

theorem sub64_zero_sub64_zero {value : ℕ} (hpos : 0 < value) (hvalue : value < 2 ^ 64) :
    sub64 0 (sub64 0 value) = value := by
  rw [sub64, sub64]
  omega

section Signs

variable {hooks : Hooks} {turns base v : ℕ} {c : UInt8} {rest : List UInt8} {w₁ w₂ : World}

theorem iobStrtoll_minus (hread : iobRead hooks 1 w = some (code '-' :: rest, w₁))
    (hcall : iobStrtoull hooks turns base w₁ = some (.ok v, w₂))
    (hneg : sub64 0 v = 0 ∨ 2 ^ 63 ≤ sub64 0 v) :
    iobStrtoll hooks turns base w = some (some (.ok (sub64 0 v)), w₂) := by
  have hfits : ¬ (sub64 0 v ≠ 0 ∧ sub64 0 v < 2 ^ 63) := by omega
  rw [iobStrtoll, hread]
  simp only [Option.bind_eq_bind, Option.bind_some, if_true, hcall]
  rw [if_neg hfits]
  rfl

theorem iobStrtoll_else (hread : iobRead hooks 1 w = some (c :: rest, w₁))
    (hc : c ≠ code '-') (hcall : iobStrtoull hooks turns base
      (if c ≠ code '+' then (iobUngetc c w₁).2 else w₁) = some (.ok v, w₂))
    (hpos : v < 2 ^ 63) : iobStrtoll hooks turns base w = some (some (.ok v), w₂) := by
  rw [iobStrtoll, hread]
  simp only [Option.bind_eq_bind, Option.bind_some, if_neg hc, hcall]
  rw [if_neg (Nat.not_le.2 hpos)]
  rfl

end Signs

/-- The sign and the digits of a decimal number. -/
theorem iobStrtoll_text {flags k v value : ℕ} (inptr : ℕ) (hvalue : value < 2 ^ 64)
    (hv : v = if 2 ^ 63 ≤ value then sub64 0 value else value) (hk : v < 10 ^ k) (hpos : 0 < k)
    (hstr : str = signText flags (2 ^ 63 ≤ value) ++ putDigits flags 10 k v []) :
    ∃ w, iobStrtoll (strtoxHooks str) (str.length + 1) 10 (.fresh (strtoxIo inptr)) =
      some (some (.ok value), w) := by
  have hrange : 0 < 10 ∧ 10 ≤ 16 := by decide
  have hlen : k < str.length + 1 := by
    rw [hstr, List.length_append, length_putDigits]
    omega
  have hv64 : v < 2 ^ 64 := by
    rw [hv]
    split
    · exact sub64_lt 0 value
    · exact hvalue
  have hdigits : ∀ {w}, Holds str w (putDigits flags 10 k v []) → ∃ w',
      iobStrtoull (strtoxHooks str) (str.length + 1) 10 w = some (.ok v, w') :=
    fun h => strtoullLoop_all hrange hv64 hk hlen h
  obtain ⟨w₁, hread, hholds, -⟩ := (holds_fresh str inptr).read 1
  by_cases hminus : 2 ^ 63 ≤ value
  · rw [if_pos hminus] at hv
    rw [signText, if_pos hminus] at hstr
    have hback : sub64 0 v = value := by
      rw [hv, sub64_zero_sub64_zero (by omega) hvalue]
    have htail : str.drop 1 = putDigits flags 10 k v [] := by rw [hstr]; rfl
    have hhead : str.take 1 = [code '-'] := by rw [hstr]; rfl
    obtain ⟨w, hcall⟩ := hdigits (hholds.congr htail)
    refine ⟨w, ?_⟩
    rw [hhead] at hread
    rw [iobStrtoll_minus hread hcall (by omega), hback]
  · rw [if_neg hminus] at hv
    subst hv
    rw [signText, if_neg hminus] at hstr
    by_cases hplus : Has flags FL_PLUS
    · rw [if_pos hplus] at hstr
      have htail : str.drop 1 = putDigits flags 10 k v [] := by rw [hstr]; rfl
      have hhead : str.take 1 = [code '+'] := by rw [hstr]; rfl
      obtain ⟨w, hcall⟩ := hdigits (hholds.congr htail)
      rw [hhead] at hread
      exact ⟨w, iobStrtoll_else hread (by decide) hcall (Nat.lt_of_not_le hminus)⟩
    · rw [if_neg hplus, List.nil_append] at hstr
      have hlong : 0 < str.length := by
        rw [hstr, length_putDigits]
        exact Nat.lt_of_lt_of_le hpos (Nat.le_add_right k _)
      obtain ⟨c, rest, rfl⟩ := List.exists_cons_of_length_pos hlong
      have hc : c ∈ putDigits flags 10 k v [] := by
        rw [← hstr]
        exact List.mem_cons_self
      obtain ⟨-, -, -, hminus', hplus'⟩ := putDigits_ne hrange hc
      obtain ⟨w₂, hread₂, hback⟩ := read_one_back inptr
      obtain ⟨w, hcall⟩ := hdigits (hback.congr hstr)
      refine ⟨w, iobStrtoll_else hread₂ hminus' ?_ (Nat.lt_of_not_le hminus)⟩
      rw [if_pos hplus']
      exact hcall

theorem strtoll_formatInt {value : ℕ} (hvalue : value < 2 ^ 64) {precision : ℤ}
    (hprec : precision ≤ 64) (hash plus upper : Bool) (inptr : ℕ) :
    ReadsAs (formatInt value (flagBits hash plus upper ||| FL_SIGNED) 10 0 precision)
      (fun str => strtoll str inptr 10) (some (.ok value)) := by
  obtain ⟨hsigned, hspace⟩ := flagBits_or_signed hash plus upper
  generalize flagBits hash plus upper ||| FL_SIGNED = flags at *
  have hminus : Has flags FL_SIGNED ∧ 2 ^ 63 ≤ value ↔ 2 ^ 63 ≤ value :=
    and_iff_right hsigned
  have hv : (if 2 ^ 63 ≤ value then sub64 0 value else value) < 2 ^ 64 := by
    split
    · exact sub64_lt 0 value
    · exact hvalue
  obtain ⟨strs, k, hformat, hk, hpos, htext⟩ :=
    formatInt_text hspace (by decide : 8 ≤ 10) hprec hv (if_congr hminus rfl rfl).symm
  rw [signText_congr flags hminus, prefixText_ten, List.nil_append] at htext
  have hnul : 0 ∉ strs.flatten := by
    rw [htext, List.mem_append]
    rintro (hmem | hmem)
    · rw [signText] at hmem
      revert hmem
      split_ifs <;> decide
    · exact (putDigits_ne (by decide) hmem).1 rfl
  refine ⟨strs, hformat, ⟨strs.flatten, hnul⟩, rfl, ?_⟩
  obtain ⟨w, hcall⟩ := iobStrtoll_text inptr hvalue rfl hk hpos htext
  exact congrArg (· >>= fun r => some r.1) hcall

/-- Printing and parsing agree: an unsigned number in the three bases, and the bits of a
signed one in decimal. -/
theorem parse_format {value : ℕ} (hvalue : value < 2 ^ 64) {precision : ℤ}
    (hprec : -1 ≤ precision ∧ precision ≤ 64) (hash plus upper : Bool) (inptr : ℕ) :
    (∀ base, base = 8 ∨ base = 10 ∨ base = 16 →
      ReadsAs (formatInt value (flagBits hash false upper) base 0 precision)
        (fun str => strtoull str inptr base) (.ok value)) ∧
    ReadsAs (formatInt value (flagBits hash plus upper ||| FL_SIGNED) 10 0 precision)
      (fun str => strtoll str inptr 10) (some (.ok value)) :=
  ⟨fun _ hbase => strtoull_formatInt hvalue hbase hprec.2 hash upper inptr,
    strtoll_formatInt hvalue hprec.2 hash plus upper inptr⟩

theorem parse_format_min :
    (∀ base, base = 8 ∨ base = 10 ∨ base = 16 →
      ReadsAs (formatInt (2 ^ 63) (flagBits true false true) base 0 40)
        (fun str => strtoull str 1 base) (.ok (2 ^ 63))) ∧
    ReadsAs (formatInt (2 ^ 63) (flagBits true true true ||| FL_SIGNED) 10 0 40)
      (fun str => strtoll str 1 10) (some (.ok (2 ^ 63))) :=
  parse_format (by decide) ⟨by decide, by decide⟩ true true true 1

end Cyanea.IoBuffer
